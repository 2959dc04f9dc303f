import WatCompiler.Proofs.Position
import WatCompiler.Proofs.Program.ReadProgram

/-!
# Writing undoes reading

A program that was read from a source, written with its definitions in the order of their positions
and then its statements, has the words of the source: no token is lost, repeated or moved
(`words_of_parseProgram`). Only return types `None` that the source leaves out, and zeros with more
than one digit, are written in another way.

The nodes of the source say the program's lexemes as texts. A text is of one sort only
(`Kind.ofText_of_spells`), so they are the same tokens; and definitions that start one after the
other are sorted by their positions (`mergeSort_definitions`).
-/

namespace WatCompiler

open Lexer (isNameStart)
open SyntaxTree (isLayout)

/-! ## The sort of a spelling -/

namespace Token.Kind

/-- The sort of the tokens with a given spelling. -/
def ofText (t : Text) : Kind :=
  match Keyword.ofText? t, Operator.all.find? fun o => o.text == t with
  | some k, _ => .keyword k
  | none, some o => .op o
  | none, none =>
    if t.head?.any isNameStart then .ident
    else if t.head?.any Text.isDigit then .int
    else .string

/-- What starts like no operator and is no keyword is told apart by its first byte. -/
theorem ofText_cons {c : UInt8} {t : Text} (hkeyword : Keyword.ofText? (c :: t) = none)
    (hop : ∀ o ∈ Operator.all, o.text.head? ≠ some c) :
    ofText (c :: t) = if isNameStart c then .ident else if Text.isDigit c then .int
      else .string := by
  have hnone : (Operator.all.find? fun o => o.text == c :: t) = none := by
    rw [List.find?_eq_none]
    intro o ho heq
    exact hop o ho (congrArg List.head? (eq_of_beq heq))
  rw [ofText, hkeyword, hnone]
  rfl

/-- Keywords start like names. -/
theorem ofText?_eq_none {t : Text} (h : t.head?.any isNameStart = false) :
    Keyword.ofText? t = none := by
  cases hfound : Keyword.ofText? t with
  | none => rfl
  | some k =>
    have hspelled := List.find?_some hfound
    have hstart := (Source.keyword_text k).1
    rw [eq_of_beq hspelled] at hstart
    exact absurd (h.symm.trans hstart) Bool.false_ne_true

theorem ofText_operator (o : Operator) : ofText o.text = .op o := by
  have hall : ∀ o ∈ Operator.all, o.text.head?.any isNameStart = false ∧
      (Operator.all.find? fun o' => o'.text == o.text) = some o := by
    decide +kernel
  obtain ⟨hstart, hfound⟩ := hall o (by cases o <;> decide)
  rw [ofText, ofText?_eq_none hstart, hfound]

theorem ofText_digit {c : UInt8} (hc : Text.isDigit c = true) (t : Text) :
    ofText (c :: t) = .int := by
  have hdigit : ∀ c, Text.isDigit c = true →
      isNameStart c = false ∧ ∀ o ∈ Operator.all, o.text.head? ≠ some c := by
    decide +kernel
  obtain ⟨hstart, hop⟩ := hdigit c hc
  rw [ofText_cons (ofText?_eq_none hstart) hop, hstart, if_neg Bool.false_ne_true, if_pos hc]

/-- A spelling is of one sort only. -/
theorem ofText_of_spells {kind : Kind} {t : Text} (h : kind.Spells t)
    (hkind : isLayout kind = false) : ofText t = kind := by
  have hname : ∀ c, isNameStart c = true → ∀ o ∈ Operator.all, o.text.head? ≠ some c := by
    decide +kernel
  have hquote : ∀ c ∈ [Text.byte '"', Text.byte '\''], isNameStart c = false ∧
      Text.isDigit c = false ∧ ∀ o ∈ Operator.all, o.text.head? ≠ some c := by
    decide +kernel
  cases kind with
  | endOfInput | newline | indent | dedent => cases hkind
  | keyword k =>
    cases h
    rw [ofText, (Source.keyword_text k).2.2]
  | op o =>
    cases h
    exact ofText_operator o
  | ident =>
    cases t with
    | nil => cases h
    | cons c t =>
      obtain ⟨⟨hc, -⟩, hkeyword⟩ : (isNameStart c = true ∧ _) ∧ _ := by
        simpa only [Spells, isIdentifier, Bool.and_eq_true] using h
      rw [ofText_cons (Option.isNone_iff_eq_none.mp hkeyword) (hname c hc), if_pos hc]
  | int =>
    cases t with
    | nil => cases h
    | cons c t =>
      simp only [Spells, isNumeral, List.all_cons, Bool.and_eq_true] at h
      exact ofText_digit h.1.2.1 t
  | string =>
    cases t with
    | nil => rcases h with h | h <;> cases h
    | cons c t =>
      have hc : c ∈ [Text.byte '"', Text.byte '\''] := by
        rcases h with h | h
        · cases h
          exact List.mem_cons_self
        · cases h
          exact List.mem_cons_of_mem _ List.mem_cons_self
      obtain ⟨hstart, hdigit, hop⟩ := hquote c hc
      rw [ofText_cons (ofText?_eq_none hstart) hop, hstart, hdigit]
      rfl

end Token.Kind

/-- The sort and the spelling of a token. Zero is spelled with one digit. -/
def Token.word (t : Token) : Token.Kind × Text :=
  (t.kind, if t.kind = .int then Source.shorten t.text else t.text)

namespace Source

/-- The sort and the spelling of a lexeme. -/
def Lexeme.word (x : Lexeme) : Token.Kind × Text := (x.kind, x.text)

theorem ofText_isWord {x : Lexeme} (hx : x.IsWord) : Token.Kind.ofText x.text = x.kind := by
  cases hx with
  | name h => exact Token.Kind.ofText_of_spells h rfl
  | keyword | op | sign => exact Token.Kind.ofText_of_spells rfl rfl
  | numeral n =>
    obtain ⟨c, t, htext, hc, -⟩ := Text.exists_ofNat_eq_cons n
    show Token.Kind.ofText (Text.ofNat n) = .int
    rw [htext]
    exact Token.Kind.ofText_digit hc t

/-- The word of a token is known from its spelling. -/
theorem word_eq {t : Token} (ht : t.kind.Spells t.text) (hkind : isLayout t.kind = false) :
    t.word = (Token.Kind.ofText (shorten t.text), shorten t.text) := by
  have hsort := Token.Kind.ofText_of_spells ht hkind
  by_cases hzeros : t.text ≠ [] ∧ t.text.all (· = Text.byte '0') = true
  · -- A text of zeros is a numeral.
    obtain ⟨c, rest, htext⟩ := List.exists_cons_of_ne_nil hzeros.1
    have hc : c = Text.byte '0' := by
      have hall := hzeros.2
      rw [htext, List.all_cons, Bool.and_eq_true] at hall
      exact of_decide_eq_true hall.1
    have hint : t.kind = .int := by
      rw [← hsort, htext, hc]
      exact Token.Kind.ofText_digit rfl rest
    have hshort : shorten t.text = "0" := if_pos hzeros
    have hzero : Token.Kind.ofText "0" = .int := Token.Kind.ofText_digit (c := Text.byte '0') rfl []
    rw [Token.word, if_pos hint, hshort, hint, hzero]
  · have hshort : shorten t.text = t.text := if_neg hzeros
    rw [Token.word, hshort, hsort, ite_self]

theorem word_isWord {x : Lexeme} (hx : x.IsWord) :
    x.word = (Token.Kind.ofText x.text, x.text) := by
  rw [ofText_isWord hx]
  rfl

/-- Tokens whose texts say lexemes are the same words. -/
theorem map_word_eq {ts : List Token} {xs : List Lexeme}
    (hts : ∀ t ∈ ts, t.kind.Spells t.text ∧ isLayout t.kind = false)
    (hsaid : Says (ts.map Token.text) xs) : ts.map Token.word = xs.map Lexeme.word := by
  have htexts := hsaid.text
  rw [List.map_map] at htexts
  calc ts.map Token.word
      = (ts.map (shorten ∘ Token.text)).map fun t => (Token.Kind.ofText t, t) := by
        rw [List.map_map]
        exact List.map_congr_left fun t ht => word_eq (hts t ht).1 (hts t ht).2
    _ = (xs.map Lexeme.text).map fun t => (Token.Kind.ofText t, t) := by rw [htexts]
    _ = xs.map Lexeme.word := by
        rw [List.map_map]
        exact List.map_congr_left fun x hx => (word_isWord (hsaid.isWord x hx)).symm

end Source

/-! ## The order of the definitions -/

namespace Program

open Source (OmitsNone Outline)

/-- The definitions of a program in the order of their positions, and then its statements. -/
def inOrder {α : Type} (p : Program α) : List Outline :=
  (p.definitions.mergeSort fun d e => d.1.atOrBefore e.1).map Prod.snd ++ Stmt.outlineAll p.stmts

/-- Definitions whose positions come one after the other are sorted. -/
theorem mergeSort_definitions {α : Type} {p : Program α} {defs : List (Position × Outline)}
    (hperm : defs.Perm p.definitions)
    (hbefore : (defs.map Prod.fst).Pairwise fun a b => a.atOrBefore b = true ∧ a ≠ b) :
    (p.definitions.mergeSort fun d e => d.1.atOrBefore e.1) = defs := by
  have hnodup : (defs.map Prod.fst).Nodup := hbefore.imp And.right
  have hsorted : defs.Pairwise fun d e => d.1.atOrBefore e.1 = true :=
    (List.pairwise_map.mp hbefore).imp And.left
  have hmerged := (List.mergeSort_perm p.definitions fun d e => d.1.atOrBefore e.1).trans hperm.symm
  refine hmerged.eq_of_pairwise ?_ (List.pairwise_mergeSort ?_ ?_ _) hsorted
  · intro d e hd he hle hle'
    exact List.inj_on_of_nodup_map hnodup (hmerged.mem_iff.mp hd) he
      (Position.atOrBefore_antisymm hle hle')
  · exact fun _ _ _ => Position.atOrBefore_trans
  · exact fun d e => Position.atOrBefore_total d.1 e.1

end Program

open Source (OmitsNone Outline Lexeme)

/-- **Writing undoes reading.** The tokens of a source with a program, without those that show the
line structure, are the words of the program, its definitions in the order of their positions and
then its statements. Return types `None` may be left out in the source. -/
theorem words_of_parseProgram {source : Text} {p : Program Unit} (h : parseProgram source = .ok p) :
    ∃ ts xs, tokenize source = .ok ts ∧ OmitsNone (Outline.wordsAll p.inOrder) xs ∧
      (ts.filter fun t => !isLayout t.kind).map Token.word = xs.map Lexeme.word := by
  obtain ⟨used, last, nodes, htokens, hlast, hcovers, hitems⟩ := itemsFrom_of_parseProgram h
  obtain ⟨defs, hperm, hsublist, xs, homits, hsaid⟩ := hitems.words
  have hstands : ∀ t ∈ used, Token.StandsIn source t := fun t ht =>
    standsIn_of_tokenize htokens t (List.mem_append_left _ ht)
  obtain ⟨mid, horder, -⟩ := Token.inOrder_append.mp (inOrder_of_tokenize htokens)
  -- The nodes start one after the other, and so do the definitions among them.
  have hbefore : (defs.map Prod.fst).Pairwise fun a b => a.atOrBefore b = true ∧ a ≠ b := by
    refine List.Pairwise.sublist hsublist (List.pairwise_map.mpr ?_)
    exact (SyntaxTree.starts_of_covers hcovers hstands horder).2.imp
      fun hlt => LineIndex.position_lt _ hlt
  have hvisible : (used ++ [last]).filter (fun t => !isLayout t.kind) =
      used.filter fun t => !isLayout t.kind := by
    rw [List.filter_append, List.filter_cons_of_neg (by rw [hlast]; decide), List.filter_nil,
      List.append_nil]
  refine ⟨used ++ [last], xs, htokens, ?_, ?_⟩
  · rw [Program.inOrder, Program.mergeSort_definitions hperm hbefore]
    exact homits
  · rw [hvisible]
    rw [SyntaxTree.words_of_covers hcovers hstands] at hsaid
    refine Source.map_word_eq (fun t ht => ?_) hsaid
    obtain ⟨hused, hshown⟩ := List.mem_filter.mp ht
    exact ⟨(hstands t hused).spells, (Bool.not_eq_true' _).mp hshown⟩

/-- A variable between two functions, one of which leaves out that it returns `None`. -/
def mixedSource : Text :=
  "def f(a:int):\n  print(a)\nx:int = 00\ndef g()->None:\n  return\nf((x))\n"

theorem words_of_parseProgram_mixedSource :
    ∃ p xs, parseProgram mixedSource = .ok p ∧ OmitsNone (Outline.wordsAll p.inOrder) xs ∧
      (xs.map Lexeme.word).flatMap (fun word => word.2 ++ [Text.byte ' ']) =
        Text.ofString ("def f ( a : int ) : print ( a ) x : int = 0 " ++
          "def g ( ) -> None : return f ( ( x ) ) ") := by
  have hread : (parseProgram mixedSource).toOption.map (fun _ => ()) = some () := by decide +kernel
  have htexts : (tokenize mixedSource).toOption.map (fun ts =>
      ((ts.filter fun t => !isLayout t.kind).map Token.word).flatMap
        fun word => word.2 ++ [Text.byte ' ']) =
        some (Text.ofString ("def f ( a : int ) : print ( a ) x : int = 0 " ++
          "def g ( ) -> None : return f ( ( x ) ) ")) := by
    decide +kernel
  obtain ⟨p, hp, -⟩ := toOption_map_eq_some.mp hread
  obtain ⟨ts, xs, htokens, homits, hwords⟩ := words_of_parseProgram hp
  rw [htokens] at htexts
  refine ⟨p, xs, hp, homits, ?_⟩
  rw [← hwords]
  exact Option.some.inj htexts

end WatCompiler
