import WatCompiler.Proofs.Token.Ignored

/-!
# Line endings

A source whose lines end in a carriage return and a line feed (`Text.crlf`) has the tokens of the
source whose lines end in a line feed, as far as sorts and spellings go, with one exception: a
backslash does not join two lines there, so a source that joins lines so is refused
(`tokenize_crlf`).

The lexer of the one source is followed by the lexer of the other (`withReturns`), which differs
only in its rest and its offset. For each step of the first the second makes one or two steps, which
find tokens of the same spelling (`step_goesOn`); at a line that is continued it fails
(`run_of_continues`).
-/

namespace WatCompiler

/-! ## Texts with carriage returns -/

namespace Text

/-- The text with a carriage return before every line feed. -/
def crlf (t : Text) : Text := t.flatMap fun c => if c = newline then [byte '\r', newline] else [c]

theorem crlf_newline (t : Text) : crlf (newline :: t) = byte '\r' :: newline :: crlf t := rfl

theorem crlf_cons {c : UInt8} (hc : c ≠ newline) (t : Text) : crlf (c :: t) = c :: crlf t := by
  rw [crlf, List.flatMap_cons, if_neg hc]
  rfl

theorem crlf_append (t u : Text) : crlf (t ++ u) = crlf t ++ crlf u := List.flatMap_append

theorem crlf_of_not_mem {t : Text} (h : newline ∉ t) : crlf t = t := by
  induction t with
  | nil => rfl
  | cons c t ih =>
    obtain ⟨hc, ht⟩ := not_or.mp (mt List.mem_cons.mpr h)
    rw [crlf_cons (Ne.symm hc), ih ht]

theorem crlf_ne_nil {t : Text} (h : t ≠ []) : crlf t ≠ [] := by
  obtain ⟨c, u, rfl⟩ := List.exists_cons_of_ne_nil h
  by_cases hc : c = newline
  · rw [hc]
    exact List.cons_ne_nil _ _
  · rw [crlf_cons hc]
    exact List.cons_ne_nil _ _

/-- The first byte stays, or is the carriage return before a line feed. -/
theorem mem_head?_crlf {t : Text} {c : UInt8} (hc : c ∈ (crlf t).head?) :
    c ∈ t.head? ∨ c = byte '\r' := by
  cases t with
  | nil => exact .inl hc
  | cons d t =>
    by_cases hd : d = newline
    · rw [hd, crlf_newline] at hc
      exact .inr (Option.mem_some.mp hc).symm
    · rw [crlf_cons hd] at hc
      exact .inl hc

end Text

namespace Token

/-- The sort and the spelling of a token. -/
def spelled (t : Token) : Kind × Text := (t.kind, t.text)

/-- The byte is a backslash that joins its line to the next one. -/
def Joins (source : Text) (ts : List Token) (i : Nat) : Prop :=
  source[i]? = some (Text.byte '\\') ∧ source[i + 1]? = some Text.newline ∧ Untaken ts i ∧
    ¬ InComment source ts i

end Token

namespace Lexer

open Token (Kind Untaken Joins betweenLines)
open Source (IsLexeme Stops)

variable {source : Text} {l next : Lexer} {found ts : List Token} {c : UInt8} {after : Text}
  {offset : Nat}

/-- The lexer at the same place of the text with carriage returns, where the place is `offset`. -/
def withReturns (l : Lexer) (offset : Nat) : Lexer :=
  { l with rest := l.rest.crlf, offset := offset }

/-- The lexer with carriage returns goes on to where `next` is, and finds tokens that are spelled
like those of `found`. -/
def GoesOn (l' : Lexer) (found : List Token) (next : Lexer) : Prop :=
  ∃ offset found', l'.run = (next.withReturns offset).run.map (found' ++ ·) ∧
    found'.map Token.spelled = found.map Token.spelled

/-- The lexer gets there without a token. -/
theorem goesOn_of_run {l' : Lexer} (offset : Nat) (h : l'.run = (next.withReturns offset).run) :
    l'.GoesOn [] next := by
  refine ⟨offset, [], ?_, rfl⟩
  rw [h]
  cases (next.withReturns offset).run <;> rfl

/-! ## Single moves -/

theorem rest_withReturns {passed rest : Text} (hr : l.rest = passed ++ rest) (offset : Nat) :
    (l.withReturns offset).rest = passed.crlf ++ rest.crlf := by
  rw [← Text.crlf_append, ← hr]
  rfl

/-- A carriage return inside a line is skipped. -/
theorem run_return (hl : l.atLineStart = false) (hr : l.rest = Text.byte '\r' :: after) :
    l.run = (l.behind [Text.byte '\r'] after).run :=
  run_of_nothing hr (Advances.step (.blank rfl) hl hr rfl)

/-- The line feed comes behind the carriage return. -/
theorem goesOn_newline {rest : Text} {found' : List Token} {o : Nat} (hl : l.atLineStart = false)
    (hr : l.rest = Text.newline :: rest)
    (h : Advances ((l.withReturns offset).behind [Text.byte '\r'] (Text.newline :: rest.crlf))
      rest.crlf [Text.newline] found' (next.withReturns o))
    (hsame : found'.map Token.spelled = found.map Token.spelled) :
    (l.withReturns offset).GoesOn found next := by
  have hsplit : l.rest = [Text.newline] ++ rest := hr
  have hrest : (l.withReturns offset).rest = Text.byte '\r' :: Text.newline :: rest.crlf :=
    rest_withReturns hsplit offset
  refine ⟨o, found', ?_, hsame⟩
  rw [run_return (l := l.withReturns offset) hl hrest]
  exact run_of_step rfl (h.step hl rfl rfl)

/-! ## Within a line -/

theorem text_operator (o : Operator) :
    ∀ c ∈ o.text, c ≠ Text.newline ∧ c ≠ Text.byte '\r' ∧ c ≠ Text.byte '\\' := by
  have hall : (o.text.all fun c =>
      c ≠ Text.newline ∧ c ≠ Text.byte '\r' ∧ c ≠ Text.byte '\\') = true := by
    cases o <;> rfl
  exact fun c hc => of_decide_eq_true (List.all_eq_true.mp hall c hc)

/-- Only a string can hold a line feed. -/
theorem newline_not_mem_of_isLexeme {kind : Kind} {t : Text} (h : IsLexeme kind t)
    (hstring : kind = .string → Text.newline ∉ t) : Text.newline ∉ t := by
  have hall : ∀ {p : UInt8 → Bool}, p Text.newline = false → t.all p = true → Text.newline ∉ t := by
    intro p hp ht hmem
    rw [List.all_eq_true.mp ht _ hmem] at hp
    cases hp
  cases h with
  | @identifier t h =>
    cases t with
    | nil => exact List.not_mem_nil
    | cons c t =>
      simp only [Token.isIdentifier, Bool.and_eq_true] at h
      refine hall (p := isNameByte) rfl ?_
      rw [List.all_cons, isNameByte, h.1.1, h.1.2]
      rfl
  | numeral h =>
    simp only [Token.isNumeral, Bool.and_eq_true] at h
    exact hall (p := Text.isDigit) rfl h.1.2
  | keyword k => exact hall (p := isNameByte) rfl (Source.keyword_text k).2.1
  | operator o => exact fun hmem => (text_operator o _ hmem).1 rfl
  | string => exact hstring rfl

/-- A carriage return continues nothing. -/
theorem stops_crlf {kind : Kind} {t : Text} (h : Stops kind t) : Stops kind t.crlf := by
  intro c hc
  rcases Text.mem_head?_crlf hc with hc | rfl
  · exact h c hc
  · cases kind with
    | op o => exact Source.continues_op (by decide) o
    | _ => rfl

/-- A comment takes the carriage return at its end with it. -/
theorem goesOn_comment {body rest : Text} (hl : l.atLineStart = false)
    (hr : l.rest = Text.byte '#' :: body ++ rest) (hbody : Text.newline ∉ body)
    (hend : ∀ c ∈ rest.head?, c = Text.newline) :
    (l.withReturns offset).GoesOn [] (l.behind (Text.byte '#' :: body) rest) := by
  have hpassed : Text.newline ∉ Text.byte '#' :: body := by
    rw [List.mem_cons, not_or]
    exact ⟨by decide, hbody⟩
  have hrest := rest_withReturns hr offset
  rw [Text.crlf_of_not_mem hpassed] at hrest
  refine goesOn_of_run (offset + (body.length + 1)) ?_
  cases rest with
  | nil => exact run_of_nothing hrest (Advances.step (.comment hbody hend) hl hrest rfl)
  | cons c more =>
    cases hend c rfl
    have hbody' : Text.newline ∉ body ++ [Text.byte '\r'] := by
      rw [List.mem_append, not_or]
      exact ⟨hbody, by decide⟩
    rw [Text.crlf_newline, List.append_cons] at hrest
    have hcomment : Advances (l.withReturns offset) (Text.newline :: Text.crlf more)
        (Text.byte '#' :: (body ++ [Text.byte '\r'])) [] _ :=
      .comment hbody' fun c hc => (Option.mem_some.mp hc).symm
    -- Without the carriage return the other lexer would still have to skip it.
    rw [run_of_nothing hrest (hcomment.step hl hrest rfl)]
    refine Eq.trans ?_ (run_return (l := (l.behind _ _).withReturns _) hl rfl).symm
    simp only [behind, withReturns, List.length_cons, List.length_append, List.length_nil]
    rfl

/-- One step within a line, without carriage returns and with them. -/
theorem Advances.goesOn {passed rest : Text} (h : Advances l rest passed found next)
    (hl : l.atLineStart = false) (hr : l.rest = passed ++ rest) (hcontinues : ¬ l.Continues)
    (hfound : ∀ t ∈ found, t.kind = .string → Text.newline ∉ t.text) :
    (l.withReturns offset).GoesOn found next := by
  have hrest := rest_withReturns hr offset
  cases h with
  | @blank c hblank =>
    have hc : c ≠ Text.newline := fun hc => by
      rw [hc] at hblank
      cases hblank
    rw [Text.crlf_cons hc] at hrest
    exact ⟨offset + 1, [], run_of_step hrest (Advances.step (.blank hblank) hl hrest rfl), rfl⟩
  | inside hdepth => exact goesOn_newline (o := offset + 2) hl hr (.inside hdepth) rfl
  | comment hbody hend => exact goesOn_comment hl hr hbody hend
  | continuation => exact absurd ⟨hl, rest, hr⟩ hcontinues
  | lineEnd hdepth =>
    refine goesOn_newline (o := offset + 2) hl hr (.lineEnd hdepth) ?_
    show (if betweenLines l.last then [] else [_]).map _ = (if _ then [] else [_]).map _
    split <;> rfl
  | @lexeme x hx hstop =>
    have htext : Text.newline ∉ x.text := newline_not_mem_of_isLexeme hx
      fun hkind => hfound _ (List.mem_singleton.mpr rfl) hkind
    rw [Text.crlf_of_not_mem htext] at hrest
    obtain ⟨c, t, hcons, -⟩ := hx.exists_eq_cons
    have hstep := Advances.step (l := l.withReturns offset) (c := c)
      (.lexeme hx (stops_crlf hstop)) hl hrest (by rw [hcons]; rfl)
    rw [hcons] at hrest
    exact ⟨offset + x.text.length, _, run_of_step hrest hstep, rfl⟩

/-! ## The start of a line -/

theorem isVisible_crlf {t : Text} (h : IsVisible t) : IsVisible t.crlf := by
  obtain ⟨c, hc, hmargin, hskipped⟩ := h
  obtain ⟨more, rfl⟩ := List.head?_eq_some_iff.mp hc
  have hne : c ≠ Text.newline := fun hc => by
    rw [hc] at hskipped
    cases hskipped
  rw [Text.crlf_cons hne]
  exact ⟨c, rfl, hmargin, hskipped⟩

/-- One step at the start of a line, without carriage returns and with them. -/
theorem Begins.goesOn {passed rest : Text} (h : Begins l rest passed found next)
    (hl : l.atLineStart = true) (hr : l.rest = passed ++ rest) (hne : l.rest ≠ []) :
    (l.withReturns offset).GoesOn found next := by
  have hrest := rest_withReturns hr offset
  have hmargins : ∀ {margin : Text}, margin.all isMargin = true → margin.crlf = margin := fun h =>
    Text.crlf_of_not_mem fun hmem => absurd (List.all_eq_true.mp h _ hmem) (by decide)
  obtain ⟨c, after, hcons⟩ : ∃ c after, (l.withReturns offset).rest = c :: after :=
    List.exists_cons_of_ne_nil (Text.crlf_ne_nil hne)
  have hgoes : ∀ {passed' found' o}, (l.withReturns offset).rest = passed' ++ rest.crlf →
      Begins (l.withReturns offset) rest.crlf passed' found' (next.withReturns o) →
      found'.map Token.spelled = found.map Token.spelled →
        (l.withReturns offset).GoesOn found next :=
    fun hr' h hsame => ⟨_, _, run_of_step hcons (h.step hl hr' c), hsame⟩
  cases h with
  | margin hmargin hnil =>
    rw [hmargins hmargin] at hrest
    subst hnil
    exact hgoes hrest (.margin hmargin rfl) rfl
  | @skipped margin body ending hmargin hbody hend hfirst =>
    rw [Text.crlf_append, Text.crlf_append, hmargins hmargin, Text.crlf_of_not_mem hbody] at hrest
    rcases hend with rfl | ⟨rfl, rfl⟩
    · -- The carriage return is the last byte of the line.
      have hbody' : Text.newline ∉ body ++ [Text.byte '\r'] := by
        rw [List.mem_append, not_or]
        exact ⟨hbody, by decide⟩
      have hfirst' : ∃ c ∈ (body ++ [Text.byte '\r'] ++ [Text.newline]).head?,
          isSkipped c = true := by
        cases body with
        | nil => exact ⟨_, rfl, rfl⟩
        | cons => exact hfirst
      have hline : body ++ Text.crlf [Text.newline] = body ++ [Text.byte '\r'] ++ [Text.newline] :=
        List.append_cons body _ _
      rw [hline] at hrest
      exact hgoes hrest (.skipped hmargin hbody' (.inl rfl) hfirst') rfl
    · exact hgoes hrest (.skipped hmargin hbody (.inr ⟨rfl, rfl⟩) hfirst) rfl
  | opens hmargin hfirst hwidth hlast =>
    rw [hmargins hmargin] at hrest
    exact hgoes hrest (.opens hmargin (isVisible_crlf hfirst) hwidth hlast) rfl
  | closes hmargin hfirst hwidth hkept =>
    rw [hmargins hmargin] at hrest
    refine hgoes hrest (.closes hmargin (isVisible_crlf hfirst) hwidth hkept) ?_
    rw [List.map_map, List.map_map]
    rfl

theorem first?_backslash (t : Text) : Operator.first? (Text.byte '\\' :: t) = none := by
  rw [Operator.first?, List.find?_eq_none]
  intro o _ hprefix
  obtain ⟨more, hmore⟩ := List.isPrefixOf_iff_prefix.mp hprefix
  cases htext : o.text with
  | nil => exact absurd o.text_length_pos (by rw [htext]; decide)
  | cons c text =>
    have hc := (text_operator o c (by rw [htext]; exact List.mem_cons_self)).2.2
    rw [htext, List.cons_append] at hmore
    exact hc (List.cons.inj hmore).1

/-- A backslash before a carriage return is refused. -/
theorem run_of_continues (h : l.Continues) :
    (l.withReturns offset).run = .error ⟨.unexpectedCharacter (Text.byte '\\'), offset⟩ := by
  obtain ⟨hl, more, hr⟩ := h
  have hrest : (l.withReturns offset).rest =
      Text.byte '\\' :: Text.byte '\r' :: Text.newline :: Text.crlf more := by
    show Text.crlf l.rest = _
    rw [hr, Text.crlf_cons (by decide), Text.crlf_newline]
  have hoperator : (l.withReturns offset).operator (Text.byte '\\') =
      .error ⟨.unexpectedCharacter (Text.byte '\\'), offset⟩ := by
    rw [operator, hrest, first?_backslash]
    rfl
  have hwithin : (l.withReturns offset).withinLine (Text.byte '\\') =
      (l.withReturns offset).operator (Text.byte '\\') := by
    unfold withinLine
    rw [hrest]
    rfl
  rw [run_cons hrest, step, show (l.withReturns offset).atLineStart = false from hl,
    if_neg Bool.false_ne_true, hwithin, hoperator]
  rfl

/-! ## Whole runs -/

/-- **One step of the lexer, without carriage returns and with them.** -/
theorem step_goesOn (offset : Nat) (hr : l.rest = c :: after) (hstep : l.step c = .ok (found, next))
    (hcontinues : ¬ l.Continues)
    (hfound : ∀ t ∈ found, t.kind = .string → Text.newline ∉ t.text) :
    (l.withReturns offset).GoesOn found next := by
  obtain ⟨passed, hpassed, ⟨hl, hbegins⟩ | ⟨hl, hadvances⟩⟩ := exists_passed_of_step hr hstep
  · exact hbegins.goesOn hl hpassed (hr ▸ List.cons_ne_nil _ _)
  · exact hadvances.goesOn hl hpassed hcontinues hfound

/-- At the end of the source there is no carriage return either. -/
theorem finish_crlf (h : l.finish = .ok ts) :
    ∃ ts', (l.withReturns offset).finish = .ok ts' ∧
      ts'.map Token.spelled = ts.map Token.spelled := by
  unfold finish at h ⊢
  split at h
  · cases h
  · next hdepth =>
    cases h
    refine ⟨_, if_neg hdepth, ?_⟩
    have hend : ((l.withReturns offset).lineEnd 0).map Token.spelled =
        (l.lineEnd 0).map Token.spelled := by
      rw [lineEnd_eq, lineEnd_eq, show (l.withReturns offset).last = l.last from rfl]
      split <;> rfl
    simp only [List.map_append, List.map_map, hend]
    rfl

/-- **A run that joins no lines**, without carriage returns and with them. -/
theorem run_crlf (offset : Nat) (h : l.run = .ok ts)
    (hstrings : ∀ t ∈ ts, t.kind = .string → Text.newline ∉ t.text)
    (hjoined : ∀ l', Reaches l l' → ¬ l'.Continues) :
    ∃ ts', (l.withReturns offset).run = .ok ts' ∧
      ts'.map Token.spelled = ts.map Token.spelled := by
  induction hn : l.remaining using Nat.strongRecOn generalizing l ts offset with
  | ind n ih =>
    cases hr : l.rest with
    | nil =>
      have hrest : (l.withReturns offset).rest = [] := by
        show Text.crlf l.rest = _
        rw [hr]
        rfl
      rw [run_nil hr] at h
      rw [run_nil hrest]
      exact finish_crlf h
    | cons c after =>
      obtain ⟨found, next, more, hstep, hmore, rfl⟩ := exists_step_of_run h hr
      obtain ⟨offset', found', hrun, hsame⟩ := step_goesOn offset hr hstep
        (hjoined l (.refl l)) fun t ht => hstrings t (List.mem_append_left _ ht)
      obtain ⟨more', hmore', hsame'⟩ := ih _ (hn ▸ step_remaining_lt hstep hr) offset' hmore
        (fun t ht => hstrings t (List.mem_append_right _ ht))
        (fun l' hreaches => hjoined l' (.step hr hstep hreaches)) rfl
      refine ⟨found' ++ more', ?_, ?_⟩
      · rw [hrun, hmore']
        rfl
      · rw [List.map_append, List.map_append, hsame, hsame']

/-- **A run that joins two lines** fails with carriage returns. -/
theorem run_crlf_error (offset : Nat) {l' : Lexer} (hreaches : Reaches l l')
    (hjoined : l'.Continues)
    (h : l.run = .ok ts) (hstrings : ∀ t ∈ ts, t.kind = .string → Text.newline ∉ t.text) :
    ∃ i, (l.withReturns offset).run = .error ⟨.unexpectedCharacter (Text.byte '\\'), i⟩ := by
  induction hreaches generalizing ts offset with
  | refl l => exact ⟨offset, run_of_continues hjoined⟩
  | @step l next l' c after found hr hstep _ ih =>
    by_cases hfirst : l.Continues
    · exact ⟨offset, run_of_continues hfirst⟩
    · obtain ⟨found, next, more, hstep', hmore, rfl⟩ := exists_step_of_run h hr
      rw [hstep] at hstep'
      cases hstep'
      obtain ⟨offset', found', hrun, -⟩ := step_goesOn offset hr hstep hfirst
        fun t ht => hstrings t (List.mem_append_left _ ht)
      obtain ⟨i, herror⟩ := ih offset' hjoined hmore fun t ht =>
        hstrings t (List.mem_append_right _ ht)
      refine ⟨i, ?_⟩
      rw [hrun, herror]
      rfl

/-! ## Joined lines -/

theorem step_unique {next' : Lexer} {found' : List Token} {c' : UInt8} {after' : Text}
    (hr : l.rest = c :: after) (hstep : l.step c = .ok (found, next)) (hr' : l.rest = c' :: after')
    (hstep' : l.step c' = .ok (found', next')) : next = next' := by
  rw [hr] at hr'
  cases hr'
  rw [hstep] at hstep'
  cases hstep'
  rfl

/-- Of two states on one way, one comes first. -/
theorem Reaches.total {l₁ l₂ : Lexer} (h₁ : Reaches l l₁) (h₂ : Reaches l l₂) :
    Reaches l₁ l₂ ∨ Reaches l₂ l₁ := by
  induction h₁ with
  | refl l => exact .inl h₂
  | step hr hstep h₁ ih =>
    cases h₂ with
    | refl => exact .inr (.step hr hstep h₁)
    | step hr' hstep' h₂ =>
      cases step_unique hr hstep hr' hstep'
      exact ih h₂

theorem Visited.offset_le {l' : Lexer} (h : Visited source ts l) (hreaches : Reaches l l') :
    l.offset ≤ l'.offset := by
  induction hreaches with
  | refl l => exact Nat.le_refl _
  | step hr hstep _ ih =>
    have hvisit := h.visit_of_step hr hstep
    exact Nat.le_trans hvisit.offset_le (ih hvisit.visitedNext)

/-- No state on the way lies within a step. -/
theorem Visit.not_within (h : Visit source ts l found next) {l' : Lexer}
    (hl : Reaches (start source) l) (hl' : Reaches (start source) l')
    (hvisited : Visited source ts l') (hlt : l.offset < l'.offset) : next.offset ≤ l'.offset := by
  rcases hl.total hl' with hreaches | hreaches
  · cases hreaches with
    | refl => exact absurd hlt (Nat.lt_irrefl _)
    | step hr hstep hreaches =>
      obtain ⟨c, after, hr', hstep'⟩ := h.rest
      cases step_unique hr hstep hr' hstep'
      exact h.visitedNext.offset_le hreaches
  · have hle := hvisited.offset_le hreaches
    omega

theorem Follows.mem_source (h : Follows source l) (hc : c ∈ l.rest) : c ∈ source := by
  rw [h.rest] at hc
  exact List.mem_of_mem_drop hc

/-- A step over the mark of a comment goes on to the end of its line. -/
theorem Visit.over_comment (h : Visit source ts l found next) (hreturn : Text.byte '\r' ∉ source)
    {j : Nat} (hle : l.offset ≤ j) (hlt : j < next.offset)
    (hmark : source[j]? = some (Text.byte '#')) (huntaken : Untaken ts j) :
    ∃ k, j ≤ k ∧ k ≤ next.offset ∧ ∀ c ∈ source[k]?, c = Text.newline := by
  rcases h.accounts with ⟨t, ht, hstart, hstop⟩ | ⟨-, passed, hpassed, hoffset, hskips⟩
  · exact absurd ⟨hstart ▸ hle, hstop ▸ hlt⟩ (huntaken t ht)
  obtain ⟨m, rfl⟩ := Nat.exists_eq_add_of_le hle
  have hm : m < passed.length := by omega
  have hbyte : passed[m]? = some (Text.byte '#') := by
    rw [← hmark, h.visited.follows.getElem?, hpassed, List.getElem?_append_left hm]
  cases hskips with
  | separators hall =>
    exact absurd (List.all_eq_true.mp hall _ (List.mem_of_getElem? hbyte)) (by decide)
  | continuation => exact absurd (List.mem_of_getElem? hbyte) (by decide)
  | @comment margin body ending _ hmargin hbody hend =>
    rcases getElem?_line _ hmargin hend hm with ⟨c, hc, hseparates⟩ | ⟨n, hn, rfl⟩
    · rw [hbyte] at hc
      cases hc
      exact absurd hseparates (by decide)
    · -- The line feed is the last byte of the step, or the first one behind it.
      rw [List.length_append, List.length_append, List.length_cons] at hoffset
      refine ⟨l.offset + (margin ++ Text.byte '#' :: body).length, ?_, ?_, fun c hc => ?_⟩
      · rw [List.length_append, List.length_cons]
        omega
      · rw [List.length_append, List.length_cons]
        omega
      · rw [h.visited.follows.getElem?, hpassed, List.append_assoc,
          List.getElem?_append_right (Nat.le_refl _), Nat.sub_self] at hc
        rcases hend with rfl | ⟨rfl, hnext⟩
        · cases hc
          rfl
        · rw [List.nil_append, ← List.head?_eq_getElem?] at hc
          exact hnext c hc
  | returnLine =>
    refine absurd (h.visited.follows.mem_source ?_) hreturn
    rw [hpassed]
    simp

/-- A backslash joins two lines where the lexer takes it so. -/
theorem joins_iff (h : tokenize source = .ok ts) (hreturn : Text.byte '\r' ∉ source) {i : Nat} :
    Joins source ts i ↔ ∃ l, Reaches (start source) l ∧ l.Continues ∧ l.offset = i := by
  have hstart := visited_start h
  constructor
  · rintro ⟨hslash, hnewline, huntaken, hcomment⟩
    have hi := (List.getElem?_eq_some_iff.mp hslash).1
    obtain ⟨l, found, next, hreaches, hvisit, hle, hlt⟩ := hstart.exists_step (Nat.zero_le i) hi
    rcases hvisit.skipped hreaches hle hlt huntaken with ⟨c, hc, hseparates⟩ | ⟨rfl, hl⟩ | h | h
    · rw [hslash] at hc
      cases hc
      exact absurd hseparates (by decide)
    · exact ⟨l, hreaches, hl, rfl⟩
    · exact absurd h hcomment
    · obtain ⟨l, margin, line, hreaches, -, -, -, ⟨more, hr⟩, -⟩ := h
      refine absurd ((hstart.of_reaches hreaches).follows.mem_source ?_) hreturn
      rw [← hr]
      simp
  · rintro ⟨l, hreaches, ⟨hl, more, hr⟩, rfl⟩
    have hvisited := hstart.of_reaches hreaches
    have hbytes := hvisited.follows.getElem?
    rw [hr] at hbytes
    have hstep : l.step (Text.byte '\\') = .ok ([], l.skip 2) := by
      rw [step, hl, if_neg Bool.false_ne_true, withinLine, hr]
      rfl
    have hvisit := hvisited.visit_of_step hr hstep
    refine ⟨hbytes 0, hbytes 1, fun t ht htakes => ?_, ?_⟩
    · exact absurd (hvisit.only t ht _ htakes (Nat.le_refl _) (Nat.lt_add_of_pos_right Nat.two_pos))
        List.not_mem_nil
    · rintro ⟨j, hj, hmark, huntaken, hline⟩
      have hne : j ≠ l.offset := by
        intro heq
        rw [heq, show source[l.offset]? = some (Text.byte '\\') from hbytes 0] at hmark
        exact absurd hmark (by decide)
      -- The comment's line ends with the step over its mark, and so before the backslash.
      obtain ⟨l', found, next, hreaches', hvisit', hle, hlt⟩ :=
        hstart.exists_step (Nat.zero_le j) (List.getElem?_eq_some_iff.mp hmark).1
      obtain ⟨k, hjk, hknext, hk⟩ := hvisit'.over_comment hreturn hle hlt hmark huntaken
      have hnext := hvisit'.not_within hreaches' hreaches hvisited (by omega)
      have hslash := (List.getElem?_eq_some_iff.mp (hbytes 0)).1
      have hbyte : source[k]? = some source[k] := List.getElem?_eq_getElem (by omega)
      exact hline k hjk (by omega) (hk _ hbyte ▸ hbyte)

end Lexer

open Token (Joins)

/-- **Line endings.** Where every line feed gets a carriage return before it, and no string holds
one, the tokens keep their sorts and spellings if no backslash joins two lines. If one does, the
source with carriage returns is refused. -/
theorem tokenize_crlf {source : Text} {ts : List Token} (h : tokenize source = .ok ts)
    (hreturn : Text.byte '\r' ∉ source)
    (hstrings : ∀ t ∈ ts, t.kind = .string → Text.newline ∉ t.text) :
    ((∀ i, ¬ Joins source ts i) →
        ∃ ts', tokenize source.crlf = .ok ts' ∧ ts'.map Token.spelled = ts.map Token.spelled) ∧
      ∀ i, Joins source ts i →
        ∃ j, tokenize source.crlf = .error ⟨.unexpectedCharacter (Text.byte '\\'), j⟩ := by
  have hrun := mapError_eq_ok.mp h
  refine ⟨fun hjoins => ?_, fun i hjoins => ?_⟩
  · obtain ⟨ts', hts', hsame⟩ := Lexer.run_crlf 0 hrun hstrings fun l hl hcontinues =>
      hjoins l.offset ((Lexer.joins_iff h hreturn).mpr ⟨l, hl, hcontinues, rfl⟩)
    exact ⟨ts', mapError_eq_ok.mpr hts', hsame⟩
  · obtain ⟨l, hl, hcontinues, -⟩ := (Lexer.joins_iff h hreturn).mp hjoins
    obtain ⟨j, herror⟩ := Lexer.run_crlf_error 0 hl hcontinues hrun hstrings
    have hstart : Lexer.start source.crlf = (Lexer.start source).withReturns 0 := rfl
    refine ⟨(LineIndex.ofText source.crlf).position j, ?_⟩
    rw [tokenize, hstart, herror]
    rfl

/-- An indented block behind a comment, an open bracket and a blank line. -/
def indentedSource : Text := "if f(\n1):#a\n\n\tg\n"

/-- A line that is joined to the next one. -/
def splitSource : Text := "f\\\n(1)\n"

theorem tokenize_crlf_indentedSource :
    (∃ ts ts', tokenize indentedSource = .ok ts ∧ tokenize indentedSource.crlf = .ok ts' ∧
      ts'.map Token.spelled = ts.map Token.spelled) ∧
      ∃ ts j, tokenize splitSource = .ok ts ∧ Joins splitSource ts 1 ∧
        tokenize splitSource.crlf = .error ⟨.unexpectedCharacter (Text.byte '\\'), j⟩ := by
  have hindented : (tokenize indentedSource).toOption.map
      (fun ts => decide (∀ t ∈ ts, t.kind = .string → Text.newline ∉ t.text)) = some true := by
    decide +kernel
  have hsplit : (tokenize splitSource).toOption.map
      (fun ts => decide (Token.Untaken ts 1 ∧
        ∀ t ∈ ts, t.kind = .string → Text.newline ∉ t.text)) = some true := by
    decide +kernel
  obtain ⟨ts₁, hts₁, hstrings₁⟩ := toOption_map_eq_some.mp hindented
  obtain ⟨ts₂, hts₂, hboth⟩ := toOption_map_eq_some.mp hsplit
  obtain ⟨huntaken, hstrings₂⟩ := of_decide_eq_true hboth
  have hjoins : Joins splitSource ts₂ 1 := by
    refine ⟨by decide, by decide, huntaken, ?_⟩
    rintro ⟨j, -, hmark, -⟩
    exact absurd (List.mem_of_getElem? hmark) (by decide)
  refine ⟨?_, ?_⟩
  · obtain ⟨ts', hts', hsame⟩ := (tokenize_crlf hts₁ (by decide) (of_decide_eq_true hstrings₁)).1
      fun i hi => absurd (List.mem_of_getElem? hi.1) (by decide)
    exact ⟨ts₁, ts', hts₁, hts', hsame⟩
  · obtain ⟨j, herror⟩ := (tokenize_crlf hts₂ (by decide) hstrings₂).2 1 hjoins
    exact ⟨ts₂, j, hts₂, hjoins, herror⟩

/-- The source is accepted with line feeds, and refused with carriage returns before them. -/
theorem splitSource_refused :
    Text.byte '\r' ∉ splitSource ∧
      (∃ ts, tokenize splitSource = .ok ts ∧ ∀ t ∈ ts, t.kind ≠ .string) ∧
      ∀ ts, tokenize splitSource.crlf ≠ .ok ts := by
  have haccepted : (tokenize splitSource).toOption.map
      (fun ts => decide (∀ t ∈ ts, t.kind ≠ .string)) = some true := by
    decide +kernel
  have hrefused : (tokenize splitSource.crlf).toOption = none := by
    decide +kernel
  obtain ⟨ts, hts, hkinds⟩ := toOption_map_eq_some.mp haccepted
  refine ⟨by decide, ⟨ts, hts, of_decide_eq_true hkinds⟩, fun ts h => ?_⟩
  rw [h] at hrefused
  cases hrefused

end WatCompiler
