import WatCompiler.Proofs.Token.LineEndings
import WatCompiler.Proofs.Token.Lookahead

/-!
# Blank lines

A line that holds nothing but a margin and perhaps a comment can be put in wherever a line starts.
The source is cut into the same tokens as before, or refused for the same fault
(`spelling_insert_line`).

Two things make this true. The lexer goes over such a line in one step, which leaves everything but
the offset as it was (`run_emptyLine`). And the offset is only ever written down, in tokens and in
faults, so that a lexer which stands elsewhere finds tokens of the same sorts and spellings
(`run_movedTo`).
-/

namespace WatCompiler

open Token (Fault Kind)

/-- The tokens of a source by their sorts and spellings, or the fault for which it is refused. -/
def spelling (source : Text) : Except Fault (List (Kind × Text)) :=
  ((tokenize source).map (·.map Token.spelled)).mapError Located.what

/-- A line without tokens. -/
structure EmptyLine where
  margin : Text
  /-- What stands behind the `#`, if there is a comment. -/
  comment : Option Text
  /-- Whether the line feed comes after a carriage return. -/
  carriageReturn : Bool
  all_isMargin : margin.all Lexer.isMargin = true
  newline_not_mem_comment : ∀ t ∈ comment, Text.newline ∉ t

namespace EmptyLine

/-- What stands between the margin and the line feed. -/
def body (line : EmptyLine) : Text :=
  (line.comment.map (Text.byte '#' :: ·)).getD [] ++
    if line.carriageReturn then [Text.byte '\r'] else []

def text (line : EmptyLine) : Text := line.margin ++ (line.body ++ [Text.newline])

theorem newline_not_mem_body (line : EmptyLine) : Text.newline ∉ line.body := by
  intro hmem
  rcases List.mem_append.mp hmem with hcomment | hreturn
  · cases hline : line.comment with
    | none =>
      rw [hline] at hcomment
      cases hcomment
    | some t =>
      rw [hline] at hcomment
      rcases List.mem_cons.mp hcomment with hmark | ht
      · exact absurd hmark (by decide)
      · exact line.newline_not_mem_comment t hline ht
  · split at hreturn
    · exact absurd hreturn (by decide)
    · cases hreturn

/-- Behind its margin the line starts as a line that is gone over whole. -/
theorem exists_isSkipped (line : EmptyLine) :
    ∃ c ∈ (line.body ++ [Text.newline]).head?, Lexer.isSkipped c = true := by
  unfold body
  cases line.comment with
  | some t => exact ⟨Text.byte '#', rfl, rfl⟩
  | none =>
    cases line.carriageReturn with
    | true => exact ⟨Text.byte '\r', rfl, rfl⟩
    | false => exact ⟨Text.newline, rfl, rfl⟩

end EmptyLine

namespace Lexer

open Token (betweenLines)

variable {l next : Lexer} {c : UInt8} {after pre post : Text}

/-! ## A lexer that stands elsewhere -/

/-- The lexer at another offset. -/
def movedTo (l : Lexer) (offset : Nat) : Lexer := { l with offset := offset }

/-- What a step yields, but for the offsets. -/
def Progress.bare (answer : Progress) : Except Fault (List (Kind × Text) × Lexer) :=
  (answer.map fun (found, next) => (found.map Token.spelled, next.movedTo 0)).mapError Failure.fault

/-- What a run yields, but for the offsets. -/
def bare (answer : Except Failure (List Token)) : Except Fault (List (Kind × Text)) :=
  (answer.map (·.map Token.spelled)).mapError Failure.fault

theorem Progress.bare_ok {found found' : List Token} {next' : Lexer}
    (hfound : found.map Token.spelled = found'.map Token.spelled)
    (hnext : next.movedTo 0 = next'.movedTo 0) :
    Progress.bare (.ok (found, next)) = Progress.bare (.ok (found', next')) :=
  congrArg Except.ok (Prod.ext hfound hnext)

theorem Progress.bare_ite {p : Prop} [Decidable p] {a a' b b' : Progress} (ha : a.bare = a'.bare)
    (hb : b.bare = b'.bare) :
    Progress.bare (if p then a else b) = Progress.bare (if p then a' else b') := by
  split
  · exact ha
  · exact hb

section

variable (l) (offset : Nat)

/-- Indentation depends on the margin, not on where the line stands. -/
theorem indentTo_movedTo (n width : Nat) :
    Progress.bare ((l.movedTo offset).indentTo n width) = Progress.bare (l.indentTo n width) := by
  unfold indentTo
  refine Progress.bare_ite (Progress.bare_ite rfl rfl)
    (Progress.bare_ite (Progress.bare_ok ?_ rfl) rfl)
  rw [List.map_map, List.map_map]
  rfl

/-- The start of a line is read alike at any offset. -/
theorem lineStart_movedTo :
    Progress.bare (l.movedTo offset).lineStart = Progress.bare l.lineStart := by
  unfold lineStart
  dsimp only [movedTo]
  cases l.rest.dropWhile isMargin with
  | nil => rfl
  | cons c after => exact Progress.bare_ite rfl (indentTo_movedTo l offset _ _)

theorem number_movedTo : Progress.bare (l.movedTo offset).number = Progress.bare l.number := by
  rw [number_eq, number_eq]
  exact Progress.bare_ite rfl (Progress.bare_ite rfl rfl)

theorem word_movedTo : Progress.bare (l.movedTo offset).word = Progress.bare l.word := by
  unfold word
  dsimp only [movedTo]
  cases Keyword.ofText? (l.rest.takeWhile isNameByte) with
  | none => rfl
  | some k => rfl

/-- A string is read alike at any offset. -/
theorem string_movedTo (mark : UInt8) :
    Progress.bare ((l.movedTo offset).string mark) = Progress.bare (l.string mark) := by
  unfold string
  dsimp only [movedTo]
  cases stringLength? mark (l.rest.drop 1) with
  | none => rfl
  | some n => rfl

theorem operator_movedTo (c : UInt8) :
    Progress.bare ((l.movedTo offset).operator c) = Progress.bare (l.operator c) := by
  unfold operator
  dsimp only [movedTo]
  cases Operator.first? l.rest with
  | none => rfl
  | some o => rfl

/-- What a line goes on with is read alike at any offset. -/
theorem withinLine_movedTo (c : UInt8) :
    Progress.bare ((l.movedTo offset).withinLine c) = Progress.bare (l.withinLine c) := by
  have hlast : (l.movedTo offset).last = l.last := rfl
  unfold withinLine
  -- The cases are those of the definition: blank, comment, joined lines, line end, token.
  refine Progress.bare_ite rfl (Progress.bare_ite rfl (Progress.bare_ite rfl (Progress.bare_ite ?_
    (Progress.bare_ite (number_movedTo l offset) (Progress.bare_ite (word_movedTo l offset)
      (Progress.bare_ite (string_movedTo l offset c) (operator_movedTo l offset c)))))))
  simp only [lineEnd_eq, hlast]
  split
  · rfl
  · rfl

/-- **A step does not depend on the offset.** -/
theorem step_movedTo (c : UInt8) :
    Progress.bare ((l.movedTo offset).step c) = Progress.bare (l.step c) :=
  Progress.bare_ite (lineStart_movedTo l offset) (withinLine_movedTo l offset c)

theorem finish_movedTo : bare (l.movedTo offset).finish = bare l.finish := by
  have hlast : (l.movedTo offset).last = l.last := rfl
  have hdepth : (l.movedTo offset).depth = l.depth := rfl
  simp only [finish, lineEnd_eq, hlast, hdepth]
  split
  · rfl
  · refine congrArg Except.ok ?_
    simp only [List.map_append, List.map_map]
    split
    · rfl
    · rfl

end

theorem bare_map_append (answer : Except Failure (List Token)) (found : List Token) :
    bare (answer.map (found ++ ·)) = (bare answer).map (found.map Token.spelled ++ ·) := by
  cases answer with
  | error failure => rfl
  | ok ts => exact congrArg Except.ok List.map_append

/-- If the rest of the run may stand elsewhere, then the run depends on its first step without the
offsets. -/
theorem bare_run_cons (hr : l.rest = c :: after)
    (hnext : ∀ found next, l.step c = .ok (found, next) →
      bare (next.movedTo 0).run = bare next.run) :
    bare l.run = Progress.bare (l.step c) >>= fun (found, next) =>
      (bare next.run).map (found ++ ·) := by
  rw [run_cons hr]
  cases hstep : l.step c with
  | error failure => rfl
  | ok answer =>
    obtain ⟨found, next⟩ := answer
    calc bare (next.run.map (found ++ ·))
      _ = (bare next.run).map (found.map Token.spelled ++ ·) := bare_map_append next.run found
      _ = (bare (next.movedTo 0).run).map (found.map Token.spelled ++ ·) := by
        rw [hnext found next hstep]

/-- **A run does not depend on the offset.** -/
theorem run_movedTo (l : Lexer) (offset : Nat) : bare (l.movedTo offset).run = bare l.run := by
  induction hn : l.remaining using Nat.strongRecOn generalizing l offset with
  | ind n ih =>
    have hn' : (l.movedTo offset).remaining = n := hn
    cases hr : l.rest with
    | nil =>
      have hr' : (l.movedTo offset).rest = [] := hr
      rw [run_nil hr, run_nil hr']
      exact finish_movedTo l offset
    | cons c after =>
      have hr' : (l.movedTo offset).rest = c :: after := hr
      rw [bare_run_cons hr fun _ next h => ih _ (hn ▸ step_remaining_lt h hr) next 0 rfl,
        bare_run_cons hr' fun _ next h => ih _ (hn' ▸ step_remaining_lt h hr') next 0 rfl,
        step_movedTo]

/-- The spelling of a source is what the lexer finds, without offsets. -/
theorem spelling_eq_bare_run (source : Text) : spelling source = bare (start source).run := by
  rw [spelling, tokenize]
  cases (start source).run with
  | error failure => rfl
  | ok ts => rfl

/-! ## Where a line starts -/

/-- A line starts between `pre` and `post`: either the source starts there, or a line feed has just
been read, and the lexer gets there with a margin still to be measured. Inside brackets it never
does. -/
structure LineStart (pre post : Text) : Prop where
  newline : pre = [] ∨ pre.getLast? = some Text.newline
  reached : ∃ l, Reaches (start (pre ++ post)) l ∧ l.rest = post ∧ l.atLineStart = true

/-- The step that leads to the start of a line is not empty. -/
theorem exists_passed_of_lineStart (hr : l.rest = c :: after) {found : List Token}
    (hstep : l.step c = .ok (found, next)) (hnext : next.atLineStart = true) :
    ∃ passed, l.rest = passed ++ next.rest ∧ passed.head? = some c ∧
      (l.atLineStart = true ∧ Begins l next.rest passed found next ∨
        l.atLineStart = false ∧ Advances l next.rest passed found next) := by
  obtain ⟨passed, hpassed, hcases⟩ := exists_passed_of_step hr hstep
  refine ⟨passed, hpassed, ?_, hcases⟩
  cases passed with
  | nil =>
    have hless := step_remaining_lt hstep hr
    have hbool := Bool.toNat_le l.atLineStart
    rw [remaining, remaining, hpassed, hnext, List.nil_append, Bool.toNat_true] at hless
    omega
  | cons d passed =>
    rw [hr] at hpassed
    cases hpassed
    rfl

/-- Any text may follow where a line starts. -/
theorem LineStart.exists_run (h : LineStart pre post) (other : Text) :
    ∃ (l : Lexer) (before : List Token), l.rest = post ∧ l.atLineStart = true ∧
      (start (pre ++ post)).run = l.run.map (before ++ ·) ∧
      (start (pre ++ other)).run = (l.withRest other).run.map (before ++ ·) := by
  obtain ⟨l, hreaches, rfl, hl⟩ := h.reached
  rcases hreaches.eq_or_last with heq | ⟨m, c, after, found, hm, hr, hstep⟩
  · -- Nothing has been read.
    have hpre : pre = [] := List.append_left_eq_self.mp (congrArg Lexer.rest heq)
    have hstart : start other = l.withRest other := by
      rw [← heq]
      rfl
    refine ⟨l, [], rfl, hl, ?_, ?_⟩
    · rw [heq]
      exact (congrFun Except.map_id _).symm
    · rw [hpre, List.nil_append, hstart]
      exact (congrFun Except.map_id _).symm
  · obtain ⟨last, hlast, hc, hcases⟩ := exists_passed_of_lineStart hr hstep hl
    obtain ⟨passed, _, hpassed, -⟩ := hm.run_withRest
    have hpre : pre = passed ++ last := by
      rw [hlast, ← List.append_assoc] at hpassed
      exact List.append_cancel_right hpassed
    have hother : (m.withRest (last ++ other)).step c = .ok (found, l.withRest other) := by
      rcases hcases with ⟨hstart, hbegins⟩ | ⟨hwithin, hadvances⟩
      · have hne : last ≠ [] := List.ne_nil_of_mem (List.mem_of_head? hc)
        have hnewline : last.getLast? = some Text.newline := by
          rw [← List.getLast?_append_of_ne_nil passed hne, ← hpre]
          refine h.newline.resolve_left fun hnil => hne ?_
          rw [hpre] at hnil
          exact (List.append_eq_nil_iff.mp hnil).2
        exact (hbegins.withRest (.inr hnewline) (last ++ other)).step hstart rfl c
      · exact ((hadvances.of_atLineStart hwithin hl).2 other (last ++ other)).step hwithin rfl hc
    obtain ⟨passed', before, hpassed', hrun, hreplaced⟩ :=
      hm.run_withRest_last hlast hc hstep hother
    have hpre' : pre = passed' := List.append_cancel_right hpassed'
    subst hpre'
    exact ⟨l, before, rfl, hl, hrun, hreplaced⟩

/-- An empty line changes the offset only. -/
theorem run_emptyLine (line : EmptyLine) (hl : l.atLineStart = true) :
    (l.withRest (line.text ++ l.rest)).run = (l.movedTo (l.offset + line.text.length)).run := by
  have hbegins : Begins (l.withRest (line.text ++ l.rest)) l.rest line.text []
      ((l.withRest (line.text ++ l.rest)).behind line.text l.rest) :=
    .skipped line.all_isMargin line.newline_not_mem_body (.inl rfl) line.exists_isSkipped
  cases hr : line.text ++ l.rest with
  | nil => exact absurd hr (by simp [EmptyLine.text])
  | cons c after =>
    rw [hr] at hbegins
    exact run_of_nothing rfl (hbegins.step hl hr.symm c)

end Lexer

open Lexer (LineStart)

variable {pre post : Text}

/-- **Blank lines and comment lines are neutral.** -/
theorem spelling_insert_line (line : EmptyLine) (h : LineStart pre post) :
    spelling (pre ++ line.text ++ post) = spelling (pre ++ post) := by
  obtain ⟨l, before, rfl, hl, hrun, hinserted⟩ := h.exists_run (line.text ++ post)
  rw [Lexer.spelling_eq_bare_run, Lexer.spelling_eq_bare_run, List.append_assoc, hinserted, hrun,
    Lexer.run_emptyLine line hl, Lexer.bare_map_append, Lexer.bare_map_append, Lexer.run_movedTo]

/-- A comment far to the right, before a carriage return. -/
def farComment : EmptyLine where
  margin := "\t\t "
  comment := some "f("
  carriageReturn := true
  all_isMargin := by decide
  newline_not_mem_comment := by decide

/-- The head of a block. -/
def blockHead : Text := "if a:\n"

/-- The body of a block. -/
def blockBody : Text := " b\n"

/-- The comment stands between the head of a block and its body. -/
theorem spelling_insert_line_farComment :
    LineStart blockHead blockBody ∧
      spelling (blockHead ++ farComment.text ++ blockBody) = spelling (blockHead ++ blockBody) ∧
      (spelling (blockHead ++ blockBody)).toOption.map List.length = some 9 := by
  have hstart : LineStart blockHead blockBody :=
    ⟨.inr (by decide), Lexer.exists_reaches_of_after? 6 (by decide +kernel)⟩
  exact ⟨hstart, spelling_insert_line farComment hstart, by decide +kernel⟩

end WatCompiler
