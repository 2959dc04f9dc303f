import WatCompiler.Proofs.Token.Located

/-!
# Text that belongs to no token

Which bytes of a source the lexer passes over without making them part of a token. They separate
tokens and lines, they join two lines, or they stand in a comment (`Token.Passable`), with one
exception: a line that starts outside brackets with a carriage return behind its margin is passed
over whole, whatever it holds (`Lexer.InReturnLine`).

One step of the lexer takes all the bytes that it goes over as one token, or none of them
(`accounts_of_step`). Every byte of an accepted source is gone over by one step
(`Visited.exists_step`), and only the tokens that this step finds can take it (`Visit.only`). So
what one step skips is what all of them ignore (`untaken_of_tokenize`).
-/

namespace WatCompiler

namespace Token

/-- The byte at an offset is part of the token. -/
def Takes (t : Token) (i : Nat) : Prop := t.start ≤ i ∧ i < t.stop

instance (t : Token) (i : Nat) : Decidable (t.Takes i) := inferInstanceAs (Decidable (_ ∧ _))

/-- The byte at an offset is part of no token. -/
def Untaken (ts : List Token) (i : Nat) : Prop := ∀ t ∈ ts, ¬ t.Takes i

instance (ts : List Token) (i : Nat) : Decidable (Untaken ts i) :=
  inferInstanceAs (Decidable (∀ t ∈ ts, ¬ t.Takes i))

/-- Bytes that separate tokens or lines. -/
def isSeparator (c : UInt8) : Bool := Lexer.isBlank c || c = Text.newline

/-- The byte stands in a comment: in its line, before or at it, there is a `#` that is part of no
token. -/
def InComment (source : Text) (ts : List Token) (i : Nat) : Prop :=
  ∃ j ≤ i, source[j]? = some (Text.byte '#') ∧ Untaken ts j ∧
    ∀ k, j ≤ k → k ≤ i → source[k]? ≠ some Text.newline

/-- The byte need not be part of a token. -/
inductive Passable (source : Text) (ts : List Token) (i : Nat) : Prop
  | separator {c : UInt8} (hc : source[i]? = some c) (h : isSeparator c = true)
  /-- A backslash that joins its line to the next one. -/
  | continuation (hc : source[i]? = some (Text.byte '\\'))
      (hnext : source[i + 1]? = some Text.newline)
  | comment (h : InComment source ts i)

/-- Tokens in order between two offsets take nothing outside of them. -/
theorem InOrder.between {start stop : Nat} {ts : List Token} (h : InOrder start ts stop) {t : Token}
    (ht : t ∈ ts) : start ≤ t.start ∧ t.stop ≤ stop := by
  obtain ⟨before, after, rfl⟩ := List.append_of_mem ht
  obtain ⟨middle, hbefore, hmiddle, -, hafter⟩ := inOrder_append.mp h
  exact ⟨Nat.le_trans hbefore.le hmiddle, hafter.le⟩

end Token

namespace Lexer

open Token (Kind InOrder Takes Untaken Passable InComment isSeparator)

variable {source : Text} {l l' next : Lexer} {found ts : List Token} {c : UInt8} {after : Text}

/-! ## What one step goes over -/

/-- The end of a line: its line feed, or nothing where the line feed or the end of the source comes
next. -/
def EndsLine (ending rest : Text) : Prop :=
  ending = [Text.newline] ∨ ending = [] ∧ ∀ c ∈ rest.head?, c = Text.newline

/-- The text `passed` before `rest` is skipped. -/
inductive Skips (l : Lexer) : (passed rest : Text) → Prop
  | separators {passed rest : Text} (h : passed.all isSeparator = true) : Skips l passed rest
  | continuation {rest : Text} (hl : l.atLineStart = false) :
      Skips l [Text.byte '\\', Text.newline] rest
  | comment {margin body ending rest : Text} (hmargin : margin.all isSeparator = true)
      (hbody : Text.newline ∉ body) (hend : EndsLine ending rest) :
      Skips l (margin ++ Text.byte '#' :: body ++ ending) rest
  | returnLine {margin body ending rest : Text} (hl : l.atLineStart = true)
      (hmargin : margin.all isMargin = true) (hbody : Text.newline ∉ body)
      (hend : EndsLine ending rest) : Skips l (margin ++ Text.byte '\r' :: body ++ ending) rest

theorem isSeparator_of_isMargin (c : UInt8) (h : isMargin c = true) : isSeparator c = true := by
  revert c
  decide +kernel

theorem all_isSeparator_of_isMargin {t : Text} (h : t.all isMargin = true) :
    t.all isSeparator = true :=
  List.all_eq_true.mpr fun c hc => isSeparator_of_isMargin c (List.all_eq_true.mp h c hc)

/-- A step from `l` to `next` takes the text `passed` as one token, or skips it. -/
def Accounts (l : Lexer) (passed rest : Text) (found : List Token) (next : Lexer) : Prop :=
  next.offset = l.offset + passed.length ∧
    ((∃ t, found = [t] ∧ t.start = l.offset ∧ t.stop = next.offset) ∨
      (∀ t ∈ found, t.start = t.stop) ∧ l.Skips passed rest)

/-- What the start of a line passes over is a margin, or a line without tokens. -/
theorem Begins.accounts {passed rest : Text} (h : Begins l rest passed found next)
    (hl : l.atLineStart = true) : Accounts l passed rest found next := by
  cases h with
  | margin hmargin =>
    exact ⟨rfl, .inr ⟨List.forall_mem_nil _, .separators (all_isSeparator_of_isMargin hmargin)⟩⟩
  | @skipped margin body ending hmargin hbody hend hfirst =>
    refine ⟨rfl, .inr ⟨List.forall_mem_nil _, ?_⟩⟩
    have hends : EndsLine ending rest := hend.imp_right fun hsource => ⟨hsource.1, fun c hc => by
      rw [hsource.2] at hc
      cases hc⟩
    obtain ⟨c, hc, hskipped⟩ := hfirst
    cases body with
    | nil =>
      rcases hend with rfl | ⟨rfl, -⟩
      · refine .separators ?_
        rw [List.all_append, all_isSeparator_of_isMargin hmargin]
        rfl
      · cases hc
    | cons d body =>
      cases hc
      obtain ⟨hd, hline⟩ := not_or.mp (mt List.mem_cons.mpr hbody)
      simp only [isSkipped, Bool.or_eq_true, decide_eq_true_eq] at hskipped
      rw [← List.append_assoc]
      rcases hskipped with (h | rfl) | rfl
      · exact absurd h.symm hd
      · exact .returnLine hl hmargin hline hends
      · exact .comment (all_isSeparator_of_isMargin hmargin) hline hends
  | opens => exact ⟨rfl, .inl ⟨_, rfl, rfl, rfl⟩⟩
  | closes hmargin =>
    refine ⟨rfl, .inr ⟨fun t ht => ?_, .separators (all_isSeparator_of_isMargin hmargin)⟩⟩
    obtain ⟨_, -, rfl⟩ := List.mem_map.mp ht
    rfl

/-- Within a line a step takes one token, or passes over what is none. -/
theorem Advances.accounts {passed rest : Text} (h : Advances l rest passed found next)
    (hl : l.atLineStart = false) : Accounts l passed rest found next := by
  have hskips : ∀ {c : UInt8}, isSeparator c = true → l.Skips [c] rest := fun hc =>
    .separators (by rw [List.all_cons, hc]; rfl)
  cases h with
  | blank hblank =>
    refine ⟨rfl, .inr ⟨List.forall_mem_nil _, hskips ?_⟩⟩
    rw [isSeparator, hblank]
    rfl
  | inside => exact ⟨rfl, .inr ⟨List.forall_mem_nil _, hskips rfl⟩⟩
  | @comment body hbody hend =>
    refine ⟨rfl, .inr ⟨List.forall_mem_nil _, ?_⟩⟩
    have hcomment : l.Skips ([] ++ Text.byte '#' :: body ++ []) rest :=
      .comment rfl hbody (.inr ⟨rfl, hend⟩)
    rwa [List.nil_append, List.append_nil] at hcomment
  | continuation => exact ⟨rfl, .inr ⟨List.forall_mem_nil _, .continuation hl⟩⟩
  | lineEnd =>
    refine ⟨rfl, ?_⟩
    split
    · exact .inr ⟨List.forall_mem_nil _, hskips rfl⟩
    · exact .inl ⟨_, rfl, rfl, rfl⟩
  | lexeme => exact ⟨rfl, .inl ⟨_, rfl, rfl, rfl⟩⟩

/-- **A step takes all that it goes over as one token, or skips it.** -/
theorem accounts_of_step (hr : l.rest = c :: after) (hstep : l.step c = .ok (found, next)) :
    ∃ passed, l.rest = passed ++ next.rest ∧ Accounts l passed next.rest found next := by
  obtain ⟨passed, hpassed, ⟨hl, hbegins⟩ | ⟨hl, hadvances⟩⟩ := exists_passed_of_step hr hstep
  · exact ⟨passed, hpassed, hbegins.accounts hl⟩
  · exact ⟨passed, hpassed, hadvances.accounts hl⟩

/-! ## The way through a source -/

/-- The lexer comes from the first state to the second one. -/
inductive Reaches : Lexer → Lexer → Prop
  | refl (l : Lexer) : Reaches l l
  | step {l next l' : Lexer} {c : UInt8} {after : Text} {found : List Token}
      (hr : l.rest = c :: after) (hstep : l.step c = .ok (found, next)) (h : Reaches next l') :
      Reaches l l'

/-- The lexer has come here on its way through a source with the tokens `ts`. -/
structure Visited (source : Text) (ts : List Token) (l : Lexer) : Prop where
  follows : Follows source l
  /-- The tokens that were found stand before this place, and the others are still to come. -/
  split : ∃ before rest, ts = before ++ rest ∧ InOrder 0 before l.offset ∧ l.run = .ok rest

/-- A step on the way: the tokens that it finds stand between those before and those after it. -/
structure Visit (source : Text) (ts : List Token) (l : Lexer) (found : List Token) (next : Lexer) :
    Prop where
  rest : ∃ c after, l.rest = c :: after ∧ l.step c = .ok (found, next)
  visited : Visited source ts l
  visitedNext : Visited source ts next
  offset_le : l.offset ≤ next.offset
  mem : ∀ t ∈ found, t ∈ ts
  /-- Only the tokens that the step finds take what it goes over. -/
  only : ∀ t ∈ ts, ∀ i, t.Takes i → l.offset ≤ i → i < next.offset → t ∈ found

/-- A lexer that succeeds takes a step that succeeds. -/
theorem exists_step_of_run (h : l.run = .ok ts) (hr : l.rest = c :: after) :
    ∃ found next more, l.step c = .ok (found, next) ∧ next.run = .ok more ∧ ts = found ++ more := by
  rw [run_cons hr] at h
  obtain ⟨⟨found, next⟩, hstep, hmap⟩ := bind_eq_ok.mp h
  obtain ⟨more, hmore, rfl⟩ := map_eq_ok.mp hmap
  exact ⟨found, next, more, hstep, hmore, rfl⟩

theorem Visited.visit_of_step (h : Visited source ts l) (hr : l.rest = c :: after)
    (hstep : l.step c = .ok (found, next)) : Visit source ts l found next := by
  obtain ⟨before, rest, rfl, hbefore, hrun⟩ := h.split
  obtain ⟨found', next', more, hstep', hmore, rfl⟩ := exists_step_of_run hrun hr
  rw [hstep] at hstep'
  cases hstep'
  have hfinds := finds_of_step h.follows hr hstep
  have hends := run_ends hfinds.follows
  rw [hmore] at hends
  obtain ⟨-, -, -, -, hafter, -⟩ := hends
  refine ⟨⟨c, after, hr, hstep⟩, h, ⟨hfinds.follows, before ++ found, more, ?_, ?_, hmore⟩,
    hfinds.inOrder.le, fun t ht => ?_, fun t ht i htakes hle hlt => ?_⟩
  · rw [List.append_assoc]
  · exact Token.inOrder_append.mpr ⟨l.offset, hbefore, hfinds.inOrder⟩
  · exact List.mem_append_right _ (List.mem_append_left _ ht)
  · -- Earlier tokens end before the step, and later ones start behind it.
    rcases List.mem_append.mp ht with ht | ht
    · have hstop := (hbefore.between ht).2
      have := htakes.2
      omega
    rcases List.mem_append.mp ht with ht | ht
    · exact ht
    · have hstart := (hafter.between ht).1
      have := htakes.1
      omega

/-- A visited lexer with something left to read takes a step. -/
theorem Visited.visit (h : Visited source ts l) (hr : l.rest = c :: after) :
    ∃ found next, Visit source ts l found next := by
  obtain ⟨-, rest, -, -, hrun⟩ := h.split
  obtain ⟨found, next, -, hstep, -⟩ := exists_step_of_run hrun hr
  exact ⟨found, next, h.visit_of_step hr hstep⟩

/-- Every lexer that is reached is visited. -/
theorem Visited.of_reaches (h : Visited source ts l) (hreaches : Reaches l l') :
    Visited source ts l' := by
  induction hreaches with
  | refl l => exact h
  | step hr hstep _ ih => exact ih (h.visit_of_step hr hstep).visitedNext

/-- Every byte that is still to come is gone over by a step. -/
theorem Visited.exists_step (h : Visited source ts l) {i : Nat} (hle : l.offset ≤ i)
    (hlt : i < source.length) :
    ∃ l' found next, Reaches l l' ∧ Visit source ts l' found next ∧ l'.offset ≤ i ∧
      i < next.offset := by
  -- By induction on what every step makes smaller.
  induction hn : l.remaining using Nat.strongRecOn generalizing l with
  | ind n ih =>
    have hlength := h.follows.length
    obtain ⟨c, after, hr⟩ : ∃ c after, l.rest = c :: after := by
      cases hr : l.rest with
      | nil =>
        rw [hr, List.length_nil] at hlength
        omega
      | cons c after => exact ⟨c, after, rfl⟩
    obtain ⟨found, next, hvisit⟩ := h.visit hr
    obtain ⟨c', after', hr', hstep⟩ := hvisit.rest
    by_cases hnext : i < next.offset
    · exact ⟨l, found, next, .refl l, hvisit, hle, hnext⟩
    · obtain ⟨l', found', next', hreaches, hfound⟩ :=
        ih _ (hn ▸ step_remaining_lt hstep hr') hvisit.visitedNext (Nat.le_of_not_lt hnext) rfl
      exact ⟨l', found', next', .step hr' hstep hreaches, hfound⟩

theorem visited_start (h : tokenize source = .ok ts) : Visited source ts (start source) :=
  ⟨start_follows source, [], ts, rfl, Nat.le_refl 0, mapError_eq_ok.mp h⟩

/-- What is left to read stands in the source. -/
theorem Follows.getElem? (h : Follows source l) (k : Nat) : source[l.offset + k]? = l.rest[k]? := by
  rw [h.rest, List.getElem?_drop]

/-- What a step goes over is taken as one token, or is skipped and taken by no token. -/
theorem Visit.accounts (h : Visit source ts l found next) :
    (∃ t ∈ ts, t.start = l.offset ∧ t.stop = next.offset) ∨
      (∀ i, l.offset ≤ i → i < next.offset → Untaken ts i) ∧
        ∃ passed, l.rest = passed ++ next.rest ∧ next.offset = l.offset + passed.length ∧
          l.Skips passed next.rest := by
  obtain ⟨c, after, hr, hstep⟩ := h.rest
  obtain ⟨passed, hpassed, hoffset, htaken | ⟨hempty, hskips⟩⟩ := accounts_of_step hr hstep
  · obtain ⟨t, rfl, hstart, hstop⟩ := htaken
    exact .inl ⟨t, h.mem t (List.mem_singleton.mpr rfl), hstart, hstop⟩
  · refine .inr ⟨fun i hle hlt t ht htakes => ?_, passed, hpassed, hoffset, hskips⟩
    have hpoint := hempty t (h.only t ht i htakes hle hlt)
    have hinside := htakes
    unfold Takes at hinside
    omega

/-! ## Ignored bytes -/

/-- The line of the byte at `i` starts outside brackets, and as far as that byte it is a margin, a
carriage return and `line`. -/
def InReturnLine (source : Text) (i : Nat) : Prop :=
  ∃ (l : Lexer) (margin line : Text), Reaches (start source) l ∧ l.atLineStart = true ∧
    margin.all isMargin = true ∧ Text.newline ∉ line ∧
    (margin ++ Text.byte '\r' :: line) <+: l.rest ∧ i = l.offset + margin.length + line.length

/-- A byte of a skipped line separates, or it is not before the mark that makes the line skipped. -/
theorem getElem?_line {margin body ending rest : Text} (mark : UInt8)
    (hmargin : margin.all isSeparator = true) (hend : EndsLine ending rest) {k : Nat}
    (hk : k < (margin ++ mark :: body ++ ending).length) :
    (∃ c, (margin ++ mark :: body ++ ending)[k]? = some c ∧ isSeparator c = true) ∨
      ∃ j ≤ body.length, k = margin.length + j := by
  rw [List.length_append, List.length_append, List.length_cons] at hk
  -- The byte is in the margin, behind the body, or from the mark to the end of the body.
  by_cases hbefore : k < margin.length
  · refine .inl ⟨margin[k], ?_, List.all_eq_true.mp hmargin _ (List.getElem_mem hbefore)⟩
    rw [List.append_assoc, List.getElem?_append_left hbefore, List.getElem?_eq_getElem]
  · by_cases hbehind : margin.length + body.length < k
    · rcases hend with rfl | ⟨rfl, -⟩
      · refine .inl ⟨Text.newline, ?_, rfl⟩
        rw [List.getElem?_append_right (by simp only [List.length_append, List.length_cons]; omega)]
        rw [List.length_singleton] at hk
        rw [List.length_append, List.length_cons,
          show k - (margin.length + (body.length + 1)) = 0 by omega]
        rfl
      · rw [List.length_nil] at hk
        omega
    · exact .inr ⟨k - margin.length, by omega, by omega⟩

/-- The lexer is at a backslash that joins two lines. -/
def Continues (l : Lexer) : Prop :=
  l.atLineStart = false ∧ ∃ more, l.rest = Text.byte '\\' :: Text.newline :: more

/-- What a step skips separates, joins two lines, or stands in a comment or behind the carriage
return of a line that starts with one. -/
theorem Visit.skipped (h : Visit source ts l found next) (hreaches : Reaches (start source) l)
    {i : Nat} (hle : l.offset ≤ i) (hlt : i < next.offset) (hi : Untaken ts i) :
    (∃ c, source[i]? = some c ∧ isSeparator c = true) ∨ i = l.offset ∧ l.Continues ∨
      InComment source ts i ∨ InReturnLine source i := by
  rcases h.accounts with ⟨t, ht, hstart, hstop⟩ | ⟨huntaken, passed, hpassed, hoffset, hskips⟩
  · exact absurd ⟨hstart ▸ hle, hstop ▸ hlt⟩ (hi t ht)
  · obtain ⟨k, rfl⟩ := Nat.exists_eq_add_of_le hle
    have hk : k < passed.length := by omega
    have hbyte : ∀ j < passed.length, source[l.offset + j]? = passed[j]? := fun j hj => by
      rw [h.visited.follows.getElem?, hpassed, List.getElem?_append_left hj]
    cases hskips with
    | separators hall =>
      refine .inl ⟨_, ?_, List.all_eq_true.mp hall _ (List.getElem_mem hk)⟩
      rw [hbyte k hk, List.getElem?_eq_getElem]
    | continuation hl =>
      -- The backslash joins the lines, and the line feed behind it is a separator like any other.
      match k, hk with
      | 0, _ => exact .inr (.inl ⟨rfl, hl, next.rest, hpassed⟩)
      | 1, hk => exact .inl ⟨_, hbyte 1 hk, rfl⟩
    | @comment margin body ending _ hmargin hbody hend =>
      rcases getElem?_line _ hmargin hend hk with ⟨c, hc, hseparates⟩ | ⟨j, hj, rfl⟩
      · exact .inl ⟨c, (hbyte k hk).trans hc, hseparates⟩
      · -- From the mark on no byte of the comment is a line feed.
        have hinside : ∀ m ≤ body.length,
            source[l.offset + (margin.length + m)]? = (Text.byte '#' :: body)[m]? := by
          intro m hm
          have hlength : margin.length + m <
              (margin ++ Text.byte '#' :: body ++ ending).length := by
            simp only [List.length_append, List.length_cons]
            omega
          rw [hbyte _ hlength, List.append_assoc,
            List.getElem?_append_right (Nat.le_add_right _ _), Nat.add_sub_cancel_left,
            List.getElem?_append_left (by rw [List.length_cons]; omega)]
        refine .inr
          (.inr (.inl ⟨l.offset + (margin.length + 0), by omega, hinside 0 (Nat.zero_le _),
          huntaken _ (by omega) (by omega), fun n hn hni hnewline => ?_⟩))
        obtain ⟨m, rfl⟩ := Nat.exists_eq_add_of_le hn
        rw [Nat.add_zero, Nat.add_assoc, hinside m (by omega)] at hnewline
        have hmem := List.mem_of_getElem? hnewline
        rcases List.mem_cons.mp hmem with hmark | hmem
        · exact absurd hmark (by decide)
        · exact hbody hmem
    | @returnLine margin body ending _ hl hmargin hbody hend =>
      rcases getElem?_line _ (all_isSeparator_of_isMargin hmargin) hend hk with
        ⟨c, hc, hseparates⟩ | ⟨j, hj, rfl⟩
      · exact .inl ⟨c, (hbyte k hk).trans hc, hseparates⟩
      · refine .inr (.inr (.inr ⟨l, margin, body.take j, hreaches, hl, hmargin,
          fun hmem => hbody (List.mem_of_mem_take hmem), ?_, ?_⟩))
        · refine ⟨body.drop j ++ (ending ++ next.rest), ?_⟩
          simp only [hpassed, List.append_assoc, List.cons_append]
          rw [← List.append_assoc (body.take j), List.take_append_drop]
        · rw [List.length_take, Nat.min_eq_left hj, Nat.add_assoc]

/-- A byte in no token that a step passes over may be passed over. -/
theorem Visit.passable (h : Visit source ts l found next) (hreaches : Reaches (start source) l)
    {i : Nat} (hle : l.offset ≤ i) (hlt : i < next.offset) (hi : Untaken ts i) :
    Passable source ts i ∨ InReturnLine source i := by
  rcases h.skipped hreaches hle hlt hi with ⟨c, hc, hseparates⟩ | ⟨rfl, -, more, hmore⟩ | h | h
  · exact .inl (.separator hc hseparates)
  · have hbytes := h.visited.follows.getElem?
    rw [hmore] at hbytes
    exact .inl (.continuation (hbytes 0) (hbytes 1))
  · exact .inl (.comment h)
  · exact .inr h

theorem length_le_lineLength {line t : Text} (h : line <+: t) (hline : Text.newline ∉ line) :
    line.length ≤ t.lineLength := by
  induction line generalizing t with
  | nil => exact Nat.zero_le _
  | cons c line ih =>
    obtain ⟨rest, rfl⟩ := h
    have hc : c ≠ Text.newline := fun hc => hline (by rw [hc]; exact List.mem_cons_self)
    rw [List.cons_append, Text.lineLength, if_neg hc, List.length_cons]
    exact Nat.succ_le_succ
      (ih (List.prefix_append line rest) fun hmem => hline (List.mem_cons_of_mem _ hmem))

/-- A line that starts with a carriage return has no tokens. -/
theorem Visited.untaken_returnLine (h : Visited source ts l) (hl : l.atLineStart = true)
    {margin line : Text} (hmargin : margin.all isMargin = true) (hline : Text.newline ∉ line)
    (hr : (margin ++ Text.byte '\r' :: line) <+: l.rest) :
    Untaken ts (l.offset + margin.length + line.length) := by
  obtain ⟨more, hmore⟩ := hr
  rw [List.append_assoc, List.cons_append] at hmore
  have hstart :=
    lineStart_skipped hmargin hmore.symm (show isSkipped (Text.byte '\r') = true from rfl)
  obtain ⟨c, after, hcons⟩ : ∃ c after, l.rest = c :: after := by
    rw [← hmore]
    cases margin with
    | nil => exact ⟨_, _, rfl⟩
    | cons c margin => exact ⟨c, _, rfl⟩
  -- One step goes over the whole line and finds nothing.
  obtain ⟨found, next, hvisit⟩ := h.visit hcons
  obtain ⟨c', after', -, hstep⟩ := hvisit.rest
  rw [step, if_pos hl, hstart] at hstep
  cases hstep
  intro t ht htakes
  have hlength := length_le_lineLength (List.prefix_append line more) hline
  refine absurd (hvisit.only t ht _ htakes (by omega) ?_) List.not_mem_nil
  show _ < l.offset + (margin.length + Text.lineLength (Text.byte '\r' :: (line ++ more)))
  rw [Text.lineLength, if_neg (by decide)]
  omega

end Lexer

open Token (Untaken Passable)

/-- **What belongs to no token.** A byte that no token takes need not be taken, or it stands in a
line that starts with a carriage return, and no token takes a byte of such a line from that return
on. -/
theorem untaken_of_tokenize {source : Text} {ts : List Token} (h : tokenize source = .ok ts) :
    (∀ i < source.length, Untaken ts i → Passable source ts i ∨ Lexer.InReturnLine source i) ∧
      ∀ i, Lexer.InReturnLine source i → Untaken ts i := by
  have hstart := Lexer.visited_start h
  refine ⟨fun i hlt hi => ?_, ?_⟩
  · obtain ⟨l, found, next, hreaches, hvisit, hle, hnext⟩ :=
      hstart.exists_step (Nat.zero_le i) hlt
    exact hvisit.passable hreaches hle hnext hi
  · rintro i ⟨l, margin, line, hreaches, hl, hmargin, hline, hr, rfl⟩
    exact (hstart.of_reaches hreaches).untaken_returnLine hl hmargin hline hr

/-- Two lines that are joined, the second with a comment behind its only token. -/
def joinedSource : Text := "f\\\n(#a\n)\n"

theorem untaken_of_tokenize_joinedSource :
    ∃ ts, tokenize joinedSource = .ok ts ∧ Untaken ts 1 ∧ Untaken ts 5 ∧
      (Passable joinedSource ts 1 ∨ Lexer.InReturnLine joinedSource 1) ∧
      (Passable joinedSource ts 5 ∨ Lexer.InReturnLine joinedSource 5) := by
  have htokens : (tokenize joinedSource).toOption.map
      (fun ts => decide (Untaken ts 1 ∧ Untaken ts 5)) = some true := by
    decide +kernel
  obtain ⟨ts, hts, hboth⟩ := toOption_map_eq_some.mp htokens
  obtain ⟨hfirst, hsecond⟩ := of_decide_eq_true hboth
  have hignored := (untaken_of_tokenize hts).1
  exact ⟨ts, hts, hfirst, hsecond, hignored 1 (by decide) hfirst, hignored 5 (by decide) hsecond⟩

/-- A line that starts with a carriage return. -/
def returnSource : Text := "\rx = 1\n"

/-- The line has no tokens, although it holds more than separators and comments. -/
theorem returnSource_ignored :
    ∃ ts, tokenize returnSource = .ok ts ∧ Untaken ts 1 ∧ ¬ Passable returnSource ts 1 := by
  have htokens : (tokenize returnSource).toOption.map (fun ts => decide (Untaken ts 1)) =
      some true := by
    decide +kernel
  obtain ⟨ts, hts, huntaken⟩ := toOption_map_eq_some.mp htokens
  refine ⟨ts, hts, of_decide_eq_true huntaken, fun hpassable => ?_⟩
  cases hpassable with
  | separator hc h =>
    cases hc
    exact absurd h (by decide)
  | continuation hc => exact absurd hc (by decide)
  | comment h =>
    obtain ⟨j, -, hmark, -⟩ := h
    exact absurd (List.mem_of_getElem? hmark) (by decide)

end WatCompiler
