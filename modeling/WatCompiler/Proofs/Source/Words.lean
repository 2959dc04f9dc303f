import WatCompiler.Proofs.Source.Writing
import WatCompiler.Proofs.SyntaxTree.Covers
import WatCompiler.Proofs.Text.Decimal

/-!
# Reading written words

Lexemes in a row are cut into the tokens that say them (`spells_write`). A word is taken whole if
the byte after it cannot continue it (`spells_word`); a blank stands wherever the next word could
(`stops_of_touches`).
-/

namespace WatCompiler

open SyntaxTree (isLayout)

namespace Source

open Lexer (isNameStart isNameByte isBlank isMargin isSkipped)

/-- The token is of the sort of the lexeme and has its spelling, unless it is layout. -/
structure Lexeme.SaidBy (x : Lexeme) (t : Token) : Prop where
  kind : t.kind = x.kind
  text : isLayout x.kind = false → t.text = x.text

/-! ## Words -/

/-- A lexeme that stands within a line. -/
inductive Lexeme.IsWord : Lexeme → Prop
  | name {text : Text} (h : Token.isIdentifier text = true) : IsWord (.name text)
  | numeral (n : Nat) : IsWord (.numeral n)
  | keyword (k : Keyword) : IsWord (.keyword k)
  | op (o : Operator) : IsWord (.op o)
  | sign (o : Operator) : IsWord (.sign o)

/-- Whether a byte right after a token of a given sort could belong to it. -/
def continues : Token.Kind → UInt8 → Bool
  | .ident, c | .keyword _, c => isNameByte c
  | .int, c => isNameByte c || c = Text.byte '.'
  | .op o, c => Operator.all.any fun longer => longer.text = o.text ++ [c]
  | _, _ => false

/-- The text cannot continue a token of a given sort. -/
def Stops (kind : Token.Kind) (t : Text) : Prop := ∀ c ∈ t.head?, continues kind c = false

/-- The bytes that a token of a given sort starts with. -/
def starts : Token.Kind → UInt8 → Bool
  | .ident, c | .keyword _, c => isNameStart c
  | .int, c => Text.isDigit c
  | .op o, c => o.text.head? = some c
  | _, _ => false

theorem isLayout_of_isWord {x : Lexeme} (hx : x.IsWord) : isLayout x.kind = false := by
  cases hx <;> rfl

/-- A keyword has the form of a name. -/
theorem keyword_text (k : Keyword) : k.text.head?.any isNameStart = true ∧
    k.text.all isNameByte = true ∧ Keyword.ofText? k.text = some k := by
  have hall : ∀ k ∈ Keyword.all, k.text.head?.any isNameStart = true ∧
      k.text.all isNameByte = true ∧ Keyword.ofText? k.text = some k := by
    decide +kernel
  exact hall k (by cases k <;> decide)

/-- The first byte of a word tells its kind. -/
theorem exists_text_eq_cons {x : Lexeme} (hx : x.IsWord) :
    ∃ c t, x.text = c :: t ∧ starts x.kind c = true := by
  cases hx with
  | @name text h =>
    cases text with
    | nil => cases h
    | cons c t =>
      simp only [Token.isIdentifier, Bool.and_eq_true] at h
      exact ⟨c, t, rfl, h.1.1⟩
  | numeral n =>
    obtain ⟨c, t, htext, hc, -⟩ := Text.exists_ofNat_eq_cons n
    exact ⟨c, t, htext, hc⟩
  | keyword k =>
    obtain ⟨c, hhead, hc⟩ := Option.any_eq_true _ _ |>.mp (keyword_text k).1
    obtain ⟨t, htext⟩ := List.head?_eq_some_iff.mp hhead
    exact ⟨c, t, htext, hc⟩
  | op o | sign o =>
    obtain ⟨c, t, htext⟩ := List.exists_cons_of_length_pos o.text_length_pos
    exact ⟨c, t, htext, decide_eq_true (congrArg List.head? htext)⟩

/-- The second bytes of the operators that have two. -/
def operatorEnds : Text :=
  [Text.byte '*', Text.byte '/', Text.byte '=', Text.byte '<', Text.byte '>']

/-- Only the second byte of some operator makes an operator longer. -/
theorem continues_op {c : UInt8} (hc : c ∉ operatorEnds) (o : Operator) :
    continues (.op o) c = false := by
  have hends (longer : Operator) : longer.text.tail ⊆ operatorEnds := by
    cases longer <;> decide +kernel
  simp only [continues, List.any_eq_false, decide_eq_true_eq]
  intro longer _ heq
  refine hc (hends longer ?_)
  rw [heq, List.tail_append_of_ne_nil (List.ne_nil_of_length_pos o.text_length_pos)]
  exact List.mem_append_right _ (List.mem_singleton.mpr rfl)

theorem continues_leftParen (c : UInt8) : continues (.op .leftParen) c = false := by
  have hlonger (longer : Operator) :
      longer.text.head? = some (Text.byte '(') → longer.text.length = 1 := by
    cases longer <;> decide +kernel
  simp only [continues, List.any_eq_false, decide_eq_true_eq]
  intro longer _ heq
  have hlength := hlonger longer (congrArg List.head? heq)
  rw [heq] at hlength
  cases hlength

/-- The bytes that end every token before them. -/
def separators : Text :=
  [Text.newline, Text.byte ' ', Text.byte ')', Text.byte ',', Text.byte ':']

/-- Every token ends before a separator. -/
theorem continues_separator {c : UInt8} (hc : c ∈ separators) (kind : Token.Kind) :
    continues kind c = false := by
  have hbyte : ∀ c ∈ separators, isNameByte c = false ∧ c ≠ Text.byte '.' ∧ c ∉ operatorEnds := by
    decide +kernel
  obtain ⟨hname, hdot, hop⟩ := hbyte c hc
  cases kind with
  | op o => exact continues_op hop o
  | ident | keyword k => exact hname
  | int => simp only [continues, hname, hdot, decide_false, Bool.or_self]
  | endOfInput | newline | indent | dedent | string => rfl

/-- What opens an operand cannot continue an operator. -/
theorem not_mem_operatorEnds {y : Lexeme} (hopens : y.opensOperand = true) {c : UInt8}
    (hc : starts y.kind c = true) : c ∉ operatorEnds := by
  have hname : ∀ c, isNameStart c = true → c ∉ operatorEnds := by decide +kernel
  have hdigit : ∀ c, Text.isDigit c = true → c ∉ operatorEnds := by decide +kernel
  rw [Lexeme.opensOperand] at hopens
  split at hopens
  case h_1 hk => rw [hk] at hc; exact hname c hc
  case h_2 hk => rw [hk] at hc; exact hdigit c hc
  case h_3 hk => rw [hk] at hc; exact hname c hc
  case h_7 => cases hopens
  all_goals
    next hk =>
      rw [hk] at hc
      cases of_decide_eq_true hc
      decide

/-- Words that may touch are told apart. -/
theorem stops_of_touches {x y : Lexeme} (hx : x.IsWord) (hy : y.IsWord)
    (h : x.touches y = true) (rest : Text) : Stops x.kind (y.text ++ rest) := by
  obtain ⟨c, t, htext, hc⟩ := exists_text_eq_cons hy
  rw [htext]
  intro d hd
  cases Option.mem_some.mp hd
  simp only [Lexeme.touches, Bool.or_eq_true, Bool.and_eq_true, decide_eq_true_eq] at h
  have hmark {o : Operator} (ho : y.kind = .op o) : o.text.head? = some c := by
    rw [ho] at hc
    exact of_decide_eq_true hc
  rcases h with ((((h | h) | h) | h) | ⟨h, h'⟩) | ⟨h, h'⟩
  · rw [h]
    exact continues_leftParen c
  · cases hmark h
    exact continues_separator (by decide) x.kind
  · cases hmark h
    exact continues_separator (by decide) x.kind
  · cases hmark h
    exact continues_separator (by decide) x.kind
  · cases hmark h'
    rw [h]
    rfl
  · -- Only a sign is tight.
    cases hx with
    | sign o => exact continues_op (not_mem_operatorEnds h' hc) o
    | name | numeral | keyword | op => cases h

/-! ## Steps within a line -/

variable {l l' : Lexer} {rest : Text} {depth : Nat} {indents : List Nat}
  {last : Option Token.Kind} {x : Lexeme}

/-- The lexer gets to another one, and the tokens on the way say the lexemes. -/
def Spells (l : Lexer) (xs : List Lexeme) (l' : Lexer) : Prop :=
  ∃ found, List.Forall₂ Lexeme.SaidBy xs found ∧ l.run = l'.run.map (found ++ ·)

/-- What is spelled in two parts. -/
theorem Spells.trans {l m n : Lexer} {xs ys : List Lexeme} (h : Spells l xs m)
    (h' : Spells m ys n) : Spells l (xs ++ ys) n := by
  obtain ⟨found, hsaid, hrun⟩ := h
  obtain ⟨found', hsaid', hrun'⟩ := h'
  refine ⟨found ++ found', List.rel_append hsaid hsaid', ?_⟩
  rw [hrun, hrun']
  cases n.run with
  | error failure => rfl
  | ok ts => exact congrArg Except.ok (List.append_assoc found found' ts).symm

theorem Spells.of_step {xs : List Lexeme} {found : List Token} {c : UInt8} {after : Text}
    (hrest : l.rest = c :: after) (hstep : l.step c = .ok (found, l'))
    (hsaid : List.Forall₂ Lexeme.SaidBy xs found) : Spells l xs l' := by
  refine ⟨found, hsaid, ?_⟩
  rw [Lexer.run_cons hrest, hstep]
  rfl

/-- The lexer is within a line: what is left, the open brackets and indentations, the sort of the
last token. -/
structure InLine (rest : Text) (depth : Nat) (indents : List Nat) (last : Option Token.Kind)
    (l : Lexer) : Prop where
  rest : l.rest = rest
  start : l.atLineStart = false
  depth : l.depth = depth
  indents : l.indents = indents
  last : l.last = last

/-- The bracket depth after a lexeme. -/
def Lexeme.depthAfter (depth : Nat) (x : Lexeme) : Nat :=
  match x.kind with
  | .op o => Lexer.depthAfter depth o
  | _ => depth

/-- A step that takes the bytes of a lexeme says the lexeme. -/
theorem InLine.take (hl : InLine (x.text ++ rest) depth indents last l) {c : UInt8} {t : Text}
    (htext : x.text = c :: t)
    (hstep : l.withinLine c =
      { l with depth := x.depthAfter l.depth }.take x.kind x.text.length) :
    ∃ l', Spells l [x] l' ∧ InLine rest (x.depthAfter depth) indents (some x.kind) l' := by
  have hrest : l.rest = c :: (t ++ rest) := by rw [hl.rest, htext]; rfl
  have hstep : l.step c =
      { l with depth := x.depthAfter l.depth }.take x.kind x.text.length := by
    rw [Lexer.step, if_neg (by rw [hl.start]; decide), hstep]
  refine ⟨_, Spells.of_step hrest hstep (.cons ⟨rfl, fun _ => ?_⟩ .nil), ?_⟩
  · show l.rest.take x.text.length = x.text
    rw [hl.rest, List.take_left]
  · refine ⟨?_, hl.start, ?_, hl.indents, rfl⟩
    · show l.rest.drop x.text.length = rest
      rw [hl.rest, List.drop_left]
    · rw [← hl.depth]
      rfl

theorem withinLine_of_isNameStart {c : UInt8} (hc : isNameStart c = true) (l : Lexer) :
    l.withinLine c = l.word := by
  have hbyte : ∀ c, isNameStart c = true → isBlank c = false ∧ c ≠ Text.newline ∧
      c ≠ Text.byte '#' ∧ c ≠ Text.byte '\\' ∧ Text.isDigit c = false := by
    decide +kernel
  obtain ⟨hblank, hnewline, hcomment, hslash, hdigit⟩ := hbyte c hc
  simp [Lexer.withinLine, hblank, hnewline, hcomment, hslash, hdigit, hc]

theorem withinLine_of_isDigit {c : UInt8} (hc : Text.isDigit c = true) (l : Lexer) :
    l.withinLine c = l.number := by
  have hbyte : ∀ c, Text.isDigit c = true → isBlank c = false ∧ c ≠ Text.newline ∧
      c ≠ Text.byte '#' ∧ c ≠ Text.byte '\\' := by
    decide +kernel
  obtain ⟨hblank, hnewline, hcomment, hslash⟩ := hbyte c hc
  simp [Lexer.withinLine, hblank, hnewline, hcomment, hslash, hc]

/-- The first byte of an operator is taken for one. -/
theorem withinLine_of_operator {c : UInt8} {o : Operator} (hc : o.text.head? = some c)
    (l : Lexer) : l.withinLine c = l.operator c := by
  have hbyte : o.text.head?.all fun c => !isBlank c && c ≠ Text.newline && c ≠ Text.byte '#' &&
      c ≠ Text.byte '\\' && !Text.isDigit c && !isNameStart c && c ≠ Text.byte '"' &&
      c ≠ Text.byte '\'' := by
    cases o <;> decide +kernel
  simp only [hc, Option.all_some, Bool.and_eq_true, Bool.not_eq_true', decide_eq_true_eq] at hbyte
  simp [Lexer.withinLine, hbyte]

/-- The bytes of a name or keyword are taken whole. -/
theorem withinLine_word {c : UInt8} {t : Text} (hc : isNameStart c = true)
    (hall : (c :: t).all isNameByte = true) (hstop : ∀ d ∈ rest.head?, isNameByte d = false)
    (hrest : l.rest = c :: t ++ rest) :
    l.withinLine c = l.take ((Keyword.ofText? (c :: t)).elim .ident .keyword) (c :: t).length := by
  rw [withinLine_of_isNameStart hc, Lexer.word, hrest, takeWhile_append_of_all hall hstop]
  cases Keyword.ofText? (c :: t) <;> rfl

/-- Only zero is written with a leading zero. -/
theorem isNumeral_ofNat (n : Nat) : Token.isNumeral (Text.ofNat n) = true := by
  have hzeros : ((Text.ofNat n).head? = some (Text.byte '0') &&
      (Text.ofNat n).any (· ≠ Text.byte '0')) = false := by
    simp only [Bool.and_eq_false_imp, decide_eq_true_eq]
    intro hzero
    rw [Text.eq_zero_of_head?_ofNat hzero]
    decide +kernel
  have hne : (Text.ofNat n).isEmpty = false := by simpa using Text.ofNat_ne_nil n
  rw [Token.isNumeral, hne, Text.all_isDigit_ofNat, hzeros]
  rfl

/-- The digits of a numeral are taken whole. -/
theorem withinLine_numeral {c : UInt8} {t : Text} (h : Token.isNumeral (c :: t) = true)
    (hstop : Stops .int rest) (hrest : l.rest = c :: t ++ rest) :
    l.withinLine c = l.take .int (c :: t).length := by
  simp only [Token.isNumeral, Bool.and_eq_true, Bool.not_eq_true'] at h
  obtain ⟨⟨-, hall⟩, hzeros⟩ := h
  have hc : Text.isDigit c = true := by
    rw [List.all_cons, Bool.and_eq_true] at hall
    exact hall.1
  have hbyte : ∀ d, continues .int d = false →
      Text.isDigit d = false ∧ (isNameStart d || d = Text.byte '.') = false := by
    decide +kernel
  have hdigits : ∀ d ∈ rest.head?, Text.isDigit d = false := fun d hd => (hbyte d (hstop d hd)).1
  have hchecked : Lexer.number.checked l (c :: t) = l.take .int (c :: t).length := by
    rw [Lexer.number.checked, if_neg (by rw [hzeros]; exact Bool.false_ne_true)]
  rw [withinLine_of_isDigit hc, Lexer.number, hrest, takeWhile_append_of_all hall hdigits,
    dropWhile_append_of_all hall hdigits]
  cases rest with
  | nil => exact hchecked
  | cons d more =>
    show (if (isNameStart d || d = Text.byte '.') = true then _ else _) = _
    rw [(hbyte d (hstop d rfl)).2]
    exact hchecked

/-- No operator is longer than what stands there. -/
theorem first?_append {o : Operator} (hstop : Stops (.op o) rest) :
    Operator.first? (o.text ++ rest) = some o := by
  have hsame (longer : Operator) :
      longer.text.isPrefixOf (o.text ++ rest) = longer.text.isPrefixOf o.text := by
    rw [Bool.eq_iff_iff, List.isPrefixOf_iff_prefix, List.isPrefixOf_iff_prefix]
    refine ⟨fun h => ?_, fun h => h.trans (List.prefix_append _ _)⟩
    by_cases hle : longer.text.length ≤ o.text.length
    · exact List.prefix_of_prefix_length_le h (List.prefix_append _ _) hle
    · -- A longer one would have the next byte as its second.
      have hmem : longer ∈ Operator.all := by cases longer <;> decide
      have htwo : longer.text.length ≤ 2 := by cases longer <;> decide +kernel
      have hone := o.text_length_pos
      obtain ⟨s, hs⟩ : o.text <+: longer.text :=
        List.prefix_of_prefix_length_le (List.prefix_append _ _) h (by omega)
      have hlength : s.length = 1 := by
        have := congrArg List.length hs
        rw [List.length_append] at this
        omega
      obtain ⟨d, rfl⟩ := List.length_eq_one_iff.mp hlength
      rw [← hs, List.prefix_append_right_inj] at h
      obtain ⟨more, rfl⟩ := h
      have hfalse := hstop d rfl
      rw [continues, List.any_eq_false] at hfalse
      exact absurd (decide_eq_true hs.symm) (hfalse longer hmem)
  have hself : Operator.first? o.text = some o := by cases o <;> decide +kernel
  rw [Operator.first?, funext hsame]
  exact hself

/-- A word is taken whole if the text after it does not continue it. -/
theorem spells_word (hx : x.IsWord) (hstop : Stops x.kind rest)
    (hl : InLine (x.text ++ rest) depth indents last l) :
    ∃ l', Spells l [x] l' ∧ InLine rest (x.depthAfter depth) indents (some x.kind) l' := by
  obtain ⟨c, t, htext, hc⟩ := exists_text_eq_cons hx
  refine hl.take htext ?_
  have hrest : l.rest = c :: t ++ rest := by rw [hl.rest, htext]
  rw [htext]
  cases hx with
  | @name text h =>
    cases htext
    simp only [Token.isIdentifier, Bool.and_eq_true, Option.isNone_iff_eq_none] at h
    have hall : (c :: t).all isNameByte = true := by
      rw [List.all_cons, h.1.2, isNameByte, h.1.1]
      rfl
    rw [withinLine_word hc hall hstop hrest, h.2]
    rfl
  | numeral n => exact withinLine_numeral (htext ▸ isNumeral_ofNat n) hstop hrest
  | keyword k =>
    obtain ⟨-, hall, hofText⟩ := keyword_text k
    change k.text = c :: t at htext
    rw [htext] at hall hofText
    rw [withinLine_word hc hall hstop hrest, hofText]
    rfl
  | op o | sign o =>
    change o.text = c :: t at htext
    have hfirst := first?_append hstop
    rw [htext, ← hrest] at hfirst
    rw [withinLine_of_operator (of_decide_eq_true hc), Lexer.operator, hfirst, ← htext]
    rfl

/-- A blank between words spells nothing. -/
theorem spells_blank (hl : InLine (Text.byte ' ' :: rest) depth indents last l) :
    ∃ l', Spells l [] l' ∧ InLine rest depth indents last l' := by
  have hstep : l.step (Text.byte ' ') = .ok ([], l.skip 1) := by
    rw [Lexer.step, if_neg (by rw [hl.start]; decide)]
    rfl
  refine ⟨_, Spells.of_step hl.rest hstep .nil, ?_⟩
  refine ⟨?_, hl.start, hl.depth, hl.indents, hl.last⟩
  show l.rest.drop 1 = rest
  rw [hl.rest]
  rfl

theorem exists_write_eq (x : Lexeme) (more : List Lexeme) :
    ∃ t, write (x :: more) = x.text ++ t := by
  cases more with
  | nil => exact ⟨[], (List.append_nil _).symm⟩
  | cons y more =>
    exact ⟨(if x.touches y then [] else [Text.byte ' ']) ++ write (y :: more),
      List.append_assoc _ _ _⟩

theorem stops_separator {c : UInt8} (hc : c ∈ separators) (kind : Token.Kind) (t : Text) :
    Stops kind (c :: t) := by
  intro d hd
  cases Option.mem_some.mp hd
  exact continues_separator hc kind

/-- A written row of words is cut into these words. -/
theorem spells_write {words : List Lexeme} (hne : words ≠ []) (hwords : ∀ x ∈ words, x.IsWord)
    (hl : InLine (write words ++ Text.newline :: rest) depth indents last l) :
    ∃ l' kind, isLayout kind = false ∧ Spells l words l' ∧
      InLine (Text.newline :: rest) (words.foldl Lexeme.depthAfter depth) indents
        (some kind) l' := by
  induction words using write.induct generalizing l depth last with
  | case1 => exact absurd rfl hne
  | case2 x =>
    have hx := hwords x (List.mem_singleton.mpr rfl)
    have hstop : Stops x.kind (Text.newline :: rest) := stops_separator (by decide) _ _
    obtain ⟨l', hspells, hl'⟩ := spells_word hx hstop hl
    exact ⟨l', x.kind, isLayout_of_isWord hx, hspells, hl'⟩
  | case3 x y more ih =>
    have hx := hwords x List.mem_cons_self
    have hy := hwords y (List.mem_cons_of_mem _ List.mem_cons_self)
    have hfirst : ∃ m, Spells l [x] m ∧ InLine (write (y :: more) ++ Text.newline :: rest)
        (x.depthAfter depth) indents (some x.kind) m := by
      rw [write, List.append_assoc, List.append_assoc] at hl
      cases htouches : x.touches y with
      | true =>
        rw [htouches] at hl
        refine spells_word hx ?_ hl
        obtain ⟨t, ht⟩ := exists_write_eq y more
        rw [ht, List.append_assoc]
        exact stops_of_touches hx hy htouches _
      | false =>
        rw [htouches] at hl
        obtain ⟨m, hspells, hm⟩ := spells_word hx (stops_separator (by decide) _ _) hl
        obtain ⟨m', hspells', hm'⟩ := spells_blank hm
        exact ⟨m', hspells.trans hspells', hm'⟩
    obtain ⟨m, hspells, hm⟩ := hfirst
    obtain ⟨l', kind, hkind, hspells', hl'⟩ :=
      ih (List.cons_ne_nil _ _) (fun z hz => hwords z (List.mem_cons_of_mem _ hz)) hm
    exact ⟨l', kind, hkind, hspells.trans hspells', hl'⟩

end Source

end WatCompiler
