import WatCompiler.Proofs.Source.Words

/-!
# Reading written lines

A written outline is cut into the tokens that it says, with the tokens for its line structure in
between (`tokenize_textAll`). A line settles its margin first: it closes the indentations that reach
further than its own, or opens one (`Settles`). Since an indentation is closed only by the next
line, what has been said after an outline are the tokens of the outline except for some closing
ones, which are still due (`TellsLexemes`).
-/

namespace WatCompiler

open SyntaxTree (isLayout)

namespace Source

open Lexer (isNameStart isMargin isSkipped)

variable {l : Lexer} {rest : Text} {indents indents' : List Nat} {margin : Nat} {xs : List Lexeme}

/-- Words that make a line: there is one at least, and every bracket is closed. -/
structure IsLine (words : List Lexeme) : Prop where
  ne_nil : words ≠ []
  isWord : ∀ x ∈ words, x.IsWord
  balanced : words.foldl Lexeme.depthAfter 0 = 0

/-- The lexer is at the start of a line, outside brackets. -/
structure AtMargin (rest : Text) (indents : List Nat) (l : Lexer) : Prop where
  rest : l.rest = rest
  start : l.atLineStart = true
  depth : l.depth = 0
  indents : l.indents = indents
  last : l.last = none ∨ l.last = some .newline

/-! ## Margins -/

/-- The tokens that close some indentations. -/
def dedents (widths : List Nat) : List Lexeme :=
  List.replicate widths.length (.layout .dedent)

/-- What a line with a given margin does to the open indentations, and the tokens that tell: it
closes those that reach further, or it opens one. -/
inductive Settles (margin : Nat) : List Nat → List Lexeme → List Nat → Prop
  | close {deeper kept : List Nat} (hdeeper : ∀ width ∈ deeper, margin < width)
      (hkept : kept.headD 0 = margin) :
      Settles margin (deeper ++ kept) (dedents deeper) kept
  | deepen {indents : List Nat} (h : indents.headD 0 < margin) :
      Settles margin indents [.layout .indent] (margin :: indents)

theorem Settles.headD (h : Settles margin indents xs indents') : indents'.headD 0 = margin := by
  cases h with
  | close _ hkept => exact hkept
  | deepen => rfl

theorem marginWidth_replicate (n : Nat) :
    Lexer.marginWidth (List.replicate n (Text.byte ' ')) = n := by
  have hfold (n width : Nat) : (List.replicate n (Text.byte ' ')).foldl (fun width c =>
      if c = Text.byte ' ' then width + 1 else width + (8 - width % 8)) width = width + n := by
    induction n generalizing width with
    | zero => rfl
    | succ n ih =>
      rw [List.replicate_succ, List.foldl_cons, if_pos rfl, ih]
      omega
  rw [Lexer.marginWidth, hfold, Nat.zero_add]

theorem saidBy_dedents (widths : List Nat) (l : Lexer) :
    List.Forall₂ Lexeme.SaidBy (dedents widths) (widths.map fun _ => l.token .dedent 0) := by
  induction widths with
  | nil => exact .nil
  | cons width widths ih => exact .cons ⟨rfl, nofun⟩ ih

/-- At the first byte after a margin the lexer settles the indentation. -/
theorem step_margin {c : UInt8} {after : Text} (hmargin : isMargin c = false)
    (hskipped : isSkipped c = false)
    (hl : AtMargin (List.replicate margin (Text.byte ' ') ++ c :: after) indents l) (b : UInt8) :
    l.step b = l.indentTo margin margin := by
  have hall : (List.replicate margin (Text.byte ' ')).all isMargin = true := by
    rw [List.all_eq_true]
    intro d hd
    rw [List.eq_of_mem_replicate hd]
    rfl
  have hstop : ∀ d ∈ (c :: after).head?, isMargin d = false := by
    intro d hd
    cases Option.mem_some.mp hd
    exact hmargin
  rw [Lexer.step, if_pos hl.start, Lexer.lineStart, hl.rest, takeWhile_append_of_all hall hstop,
    dropWhile_append_of_all hall hstop]
  dsimp only
  rw [if_neg (by rw [hskipped]; decide), List.length_replicate, marginWidth_replicate]

theorem spells_margin {c : UInt8} {after : Text} (hmargin : isMargin c = false)
    (hskipped : isSkipped c = false) (hsettles : Settles margin indents xs indents')
    (hl : AtMargin (List.replicate margin (Text.byte ' ') ++ c :: after) indents l)
    (hlast : indents.headD 0 < margin → l.last ≠ none) :
    ∃ l' last, Spells l xs l' ∧ InLine (c :: after) 0 indents' last l' := by
  obtain ⟨b, more, hrest⟩ : ∃ b more, l.rest = b :: more := by
    rw [hl.rest]
    exact List.exists_cons_of_ne_nil (List.append_ne_nil_of_right_ne_nil _ (List.cons_ne_nil _ _))
  have hstep := step_margin hmargin hskipped hl b
  have hdrop : l.rest.drop margin = c :: after := by
    rw [hl.rest]
    exact List.drop_left' (List.length_replicate)
  cases hsettles with
  | @close deeper _ hdeeper hkept =>
    have hall : deeper.all (margin < ·) = true := by simpa using hdeeper
    have hstop : ∀ width ∈ indents'.head?, decide (margin < width) = false := by
      intro width hwidth
      have : indents'.headD 0 = width := by rw [List.headD_eq_head?_getD, hwidth]; rfl
      exact decide_eq_false (by omega)
    have hnot : ¬ (deeper ++ indents').headD 0 < margin := by
      cases deeper with
      | nil => exact Nat.not_lt.mpr (Nat.le_of_eq hkept.symm)
      | cons width _ => exact Nat.lt_asymm (hdeeper width List.mem_cons_self)
    rw [Lexer.indentTo, hl.indents, if_neg hnot] at hstep
    dsimp only at hstep
    rw [takeWhile_append_of_all hall hstop, dropWhile_append_of_all hall hstop, if_pos hkept]
      at hstep
    exact ⟨_, _, .of_step hrest hstep (saidBy_dedents deeper _), hdrop, rfl, hl.depth, rfl, rfl⟩
  | deepen h =>
    rw [Lexer.indentTo, hl.indents, if_pos h, if_neg] at hstep
    · exact ⟨_, _,
        .of_step hrest hstep
        (.cons ⟨rfl, fun hword => by cases hword⟩ .nil), hdrop, rfl, hl.depth, rfl, rfl⟩
    · rw [Option.isNone_iff_eq_none]
      exact hlast h

/-! ## Lines -/

theorem spells_lineEnd {kind : Token.Kind} (hkind : isLayout kind = false)
    (hl : InLine (Text.newline :: rest) 0 indents (some kind) l) :
    ∃ l', Spells l [.layout .newline] l' ∧ AtMargin rest indents l' ∧ l'.last = some .newline := by
  have hend : l.lineEnd 1 = [l.token .newline 1] := by
    rw [Lexer.lineEnd, hl.last]
    cases kind <;> first | rfl | cases hkind
  have hstep : l.step Text.newline = .ok ([l.token .newline 1],
      { l.skip 1 with atLineStart := true, last := some .newline }) := by
    rw [Lexer.step, if_neg (by rw [hl.start]; decide), Lexer.withinLine, hl.depth, hend]
    rfl
  refine ⟨_, .of_step hl.rest hstep (.cons ⟨rfl, fun hword => by cases hword⟩ .nil), ?_, rfl⟩
  refine ⟨?_, rfl, hl.depth, hl.indents, .inr rfl⟩
  show l.rest.drop 1 = rest
  rw [hl.rest]
  rfl

/-- A word does not start with a byte that a margin or a comment starts with. -/
theorem visible_of_starts {x : Lexeme} (hx : x.IsWord) {c : UInt8} (hc : starts x.kind c = true) :
    isMargin c = false ∧ isSkipped c = false := by
  have hname : ∀ c, isNameStart c = true → isMargin c = false ∧ isSkipped c = false := by
    decide +kernel
  have hdigit : ∀ c, Text.isDigit c = true → isMargin c = false ∧ isSkipped c = false := by
    decide +kernel
  cases hx with
  | name | keyword => exact hname c hc
  | numeral => exact hdigit c hc
  | op o | sign o =>
    have hop : o.text.head?.all fun c => !isMargin c && !isSkipped c := by
      cases o <;> decide +kernel
    rw [of_decide_eq_true hc, Option.all_some, Bool.and_eq_true, Bool.not_eq_true',
      Bool.not_eq_true'] at hop
    exact hop

/-- A written line is cut into its words, after the tokens for its margin. -/
theorem spells_writeLine {words : List Lexeme} (hwords : IsLine words)
    (hsettles : Settles margin indents xs indents')
    (hl : AtMargin (writeLine margin words ++ rest) indents l)
    (hlast : indents.headD 0 < margin → l.last ≠ none) :
    ∃ l', Spells l (xs ++ (words ++ [Lexeme.layout .newline])) l' ∧ AtMargin rest indents' l' ∧
      l'.last = some .newline := by
  obtain ⟨x, more, rfl⟩ := List.exists_cons_of_ne_nil hwords.ne_nil
  have hx := hwords.isWord x List.mem_cons_self
  obtain ⟨c, t, htext, hc⟩ := exists_text_eq_cons hx
  obtain ⟨hmargin, hskipped⟩ := visible_of_starts hx hc
  obtain ⟨u, hwrite⟩ := exists_write_eq x more
  have hline : write (x :: more) ++ Text.newline :: rest =
      c :: (t ++ u ++ Text.newline :: rest) := by
    rw [hwrite, htext]
    rfl
  rw [writeLine, List.append_assoc, List.append_assoc, List.singleton_append, hline] at hl
  obtain ⟨l₁, last, hspells₁, hl₁⟩ := spells_margin hmargin hskipped hsettles hl hlast
  rw [← hline] at hl₁
  obtain ⟨l₂, kind, hkind, hspells₂, hl₂⟩ := spells_write hwords.ne_nil hwords.isWord hl₁
  rw [hwords.balanced] at hl₂
  obtain ⟨l₃, hspells₃, hl₃, hnewline⟩ := spells_lineEnd hkind hl₂
  exact ⟨l₃, hspells₁.trans (hspells₂.trans hspells₃), hl₃, hnewline⟩

/-! ## Outlines -/

mutual

/-- Every line is one, and no block is empty. -/
def Outline.WellFormed : Outline → Prop
  | .line words => IsLine words
  | .block head body => IsLine head ∧ body ≠ [] ∧ Outline.AllWellFormed body

/-- Every outline of a list is well-formed. -/
def Outline.AllWellFormed : List Outline → Prop
  | [] => True
  | first :: rest => first.WellFormed ∧ Outline.AllWellFormed rest

end

theorem dedents_append_singleton (widths : List Nat) (width : Nat) :
    dedents (widths ++ [width]) = dedents widths ++ [Lexeme.layout .dedent] := by
  rw [dedents, List.length_append]
  exact List.replicate_succ' ..

/-- The lexer comes to the start of a line, where `rest` is left. It has told the lexemes, except
for the closing of some indentations that reach further than a margin. -/
def TellsLexemes (margin : Nat) (l : Lexer) (xs : List Lexeme) (rest : Text) (indents : List Nat) :
    Prop :=
  ∃ l' said deeper, Spells l said l' ∧ xs = said ++ dedents deeper ∧
    (∀ width ∈ deeper, margin < width) ∧ AtMargin rest (deeper ++ indents) l'

variable {step : Nat}

mutual

/-- A written outline is cut into its tokens. -/
theorem tellsLexemes_outline (hstep : 0 < step) (o : Outline) (ho : o.WellFormed) {margin : Nat}
    {indents indents' : List Nat} {xs : List Lexeme} {l : Lexer} {rest : Text}
    (hsettles : Settles margin indents xs indents')
    (hl : AtMargin (o.text step margin ++ rest) indents l)
    (hlast : indents.headD 0 < margin → l.last ≠ none) :
    TellsLexemes margin l (xs ++ o.lexemes) rest indents' := by
  match o, ho with
  | .line words, ho =>
    obtain ⟨l', hspells, hl', -⟩ := spells_writeLine ho hsettles hl hlast
    exact ⟨l', _, [], hspells, (List.append_nil _).symm, nofun, hl'⟩
  | .block head (first :: more), ⟨hhead, _, hfirst, hmore⟩ =>
    rw [Outline.text, Outline.textAll, List.append_assoc] at hl
    obtain ⟨l₁, hspells₁, hl₁, hnewline⟩ := spells_writeLine hhead hsettles hl hlast
    rw [List.append_assoc] at hl₁
    have hdeepen : indents'.headD 0 < margin + step := by
      rw [hsettles.headD]
      omega
    have hlast₁ : indents'.headD 0 < margin + step → l₁.last ≠ none := by
      rw [hnewline]
      exact fun _ => nofun
    obtain ⟨l₂, said₂, deeper₂, hspells₂, hsaid₂, hdeeper₂, hl₂⟩ :=
      tellsLexemes_outline hstep first hfirst (.deepen hdeepen) hl₁ hlast₁
    obtain ⟨l₃, said₃, deeper₃, hspells₃, hsaid₃, hdeeper₃, hl₃⟩ :=
      tellsLexemes_outlines hstep more hmore hdeeper₂ rfl hl₂
    have hbody : .layout .indent :: Outline.lexemesAll (first :: more) =
        said₂ ++ (said₃ ++ dedents deeper₃) :=
      calc .layout .indent :: Outline.lexemesAll (first :: more)
        _ = ([Lexeme.layout .indent] ++ first.lexemes) ++ Outline.lexemesAll more := rfl
        _ = said₂ ++ (dedents deeper₂ ++ Outline.lexemesAll more) := by
          rw [hsaid₂, List.append_assoc]
        _ = said₂ ++ (said₃ ++ dedents deeper₃) := by rw [hsaid₃]
    -- The indentation of the block is one more to close.
    refine ⟨l₃, _, deeper₃ ++ [margin + step], hspells₁.trans (hspells₂.trans hspells₃), ?_, ?_, ?_⟩
    · rw [Outline.lexemes, hbody, dedents_append_singleton]
      simp only [List.append_assoc, List.cons_append, List.nil_append]
    · intro width hwidth
      rcases List.mem_append.mp hwidth with h | h
      · have := hdeeper₃ width h
        omega
      · rw [List.mem_singleton.mp h]
        omega
    · rw [List.append_assoc]
      exact hl₃

/-- Written outlines are cut into their tokens. -/
theorem tellsLexemes_outlines (hstep : 0 < step) (os : List Outline)
    (hos : Outline.AllWellFormed os)
    {margin : Nat} {deeper indents : List Nat} {l : Lexer} {rest : Text}
    (hdeeper : ∀ width ∈ deeper, margin < width) (hindents : indents.headD 0 = margin)
    (hl : AtMargin (Outline.textAll step margin os ++ rest) (deeper ++ indents) l) :
    TellsLexemes margin l (dedents deeper ++ Outline.lexemesAll os) rest indents := by
  match os, hos with
  | [], _ =>
    exact ⟨l, [], deeper, ⟨[], .nil, by cases l.run <;> rfl⟩, List.append_nil _, hdeeper, hl⟩
  | first :: more, ⟨hfirst, hmore⟩ =>
    rw [Outline.textAll, List.append_assoc] at hl
    have hlast : (deeper ++ indents).headD 0 < margin → l.last ≠ none := by
      cases deeper with
      | nil => exact fun h => absurd hindents (Nat.ne_of_lt h)
      | cons width _ => exact fun h => absurd h (Nat.lt_asymm (hdeeper width List.mem_cons_self))
    obtain ⟨l₁, said₁, deeper₁, hspells₁, hsaid₁, hdeeper₁, hl₁⟩ :=
      tellsLexemes_outline hstep first hfirst (.close hdeeper hindents) hl hlast
    obtain ⟨l₂, said₂, deeper₂, hspells₂, hsaid₂, hdeeper₂, hl₂⟩ :=
      tellsLexemes_outlines hstep more hmore hdeeper₁ hindents hl₁
    refine ⟨l₂, _, deeper₂, hspells₁.trans hspells₂, ?_, hdeeper₂, hl₂⟩
    rw [Outline.lexemesAll, ← List.append_assoc, hsaid₁, List.append_assoc, hsaid₂,
      List.append_assoc]

end

/-- At the end of the source the open indentations close. -/
theorem run_of_atMargin (hl : AtMargin [] indents l) :
    ∃ ts, l.run = .ok ts ∧
      List.Forall₂ Lexeme.SaidBy (dedents indents ++ [Lexeme.layout .endOfInput]) ts := by
  have hend : l.lineEnd 0 = [] := by
    rcases hl.last with h | h <;> rw [Lexer.lineEnd, h]
  have hfinish : l.run = .ok (indents.map (fun _ => l.token .dedent 0) ++
      [l.token .endOfInput 0]) := by
    rw [Lexer.run_nil hl.rest, Lexer.finish, if_neg (by rw [hl.depth]; decide), hend, hl.indents]
    rfl
  exact ⟨_, hfinish, List.rel_append (saidBy_dedents indents l) (.cons ⟨rfl, nofun⟩ .nil)⟩

/-- The text of well-formed outlines is cut into the tokens of the outlines. -/
theorem tokenize_textAll (hstep : 0 < step) {os : List Outline} (hos : Outline.AllWellFormed os) :
    ∃ ts, tokenize (Outline.textAll step 0 os) = .ok ts ∧
      List.Forall₂ Lexeme.SaidBy (Outline.lexemesAll os ++ [Lexeme.layout .endOfInput]) ts := by
  have hstart : AtMargin (Outline.textAll step 0 os ++ ([] : Text)) ([] ++ [])
      (Lexer.start (Outline.textAll step 0 os)) :=
    ⟨(List.append_nil _).symm, rfl, rfl, rfl, .inl rfl⟩
  have hnone : ∀ width ∈ ([] : List Nat), 0 < width := nofun
  obtain ⟨l, said, deeper, ⟨found, hfound, hrun⟩, hsaid, -, hl⟩ :=
    tellsLexemes_outlines hstep os hos hnone rfl hstart
  rw [List.append_nil] at hl
  obtain ⟨ts, hrun', hts⟩ := run_of_atMargin hl
  refine ⟨found ++ ts, mapError_eq_ok.mpr ?_, ?_⟩
  · rw [hrun, hrun']
    rfl
  · change Outline.lexemesAll os = said ++ dedents deeper at hsaid
    rw [hsaid, List.append_assoc]
    exact List.rel_append hfound hts

end Source

end WatCompiler
