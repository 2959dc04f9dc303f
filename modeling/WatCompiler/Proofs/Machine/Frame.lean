import WatCompiler.Proofs.Machine.Turns

/-!
# What moves leave alone

Only an instruction that sets a global changes the globals, and then it changes that one
(`globals_step`). A function that is called starts at the beginning of its code (`starts_of_step`).
`Until` is a part of a run up to a state in which something ends.
-/

namespace WatCompiler

/-- The state that a move leads to, whether or not the run is over. -/
def Progress.state : Progress → State
  | .running s => s
  | .ended s _ => s

namespace State

variable {m : Module} {limit : Nat} {s t : State} {d : Datum} {code : List Datum}
  {rest : List Control}

/-- The next instruction sets a global. -/
def IsSetting (s : State) (name : Text) : Prop :=
  ∃ d code rest, s.current.todo = .seq (d :: code) :: rest ∧ d.instr = .globalSet name

/-! ## Globals -/

theorem globals_pop {next : Int32 → State → Progress}
    (hnext : ∀ v u, u.globals = s.globals → (next v u).state.globals = s.globals) :
    (s.pop next).state.globals = s.globals := by
  unfold pop
  split
  · rfl
  · exact hnext _ _ rfl

theorem globals_giveBack (v : Int32) : (s.giveBack v).state.globals = s.globals := by
  unfold giveBack
  split <;> rfl

theorem globals_leave : s.leave.state.globals = s.globals := by
  unfold leave
  split
  · exact globals_pop fun v u hu => (globals_giveBack v).trans hu
  · exact globals_giveBack 0

theorem globals_fallOff : s.fallOff.state.globals = s.globals := by
  unfold fallOff
  dsimp only
  split
  · exact globals_leave
  · rfl

theorem globals_branch (label : Text) : (s.branch label).state.globals = s.globals := by
  unfold branch
  split <;> rfl

theorem globals_ret : s.ret.state.globals = s.globals := by
  unfold ret
  dsimp only
  split
  · exact globals_leave
  · rfl

/-- A call, also one of the host, writes no global variable. -/
theorem globals_call (name : Text) : (s.call m name).state.globals = s.globals := by
  unfold call
  dsimp only
  split
  · rfl
  split
  · split <;> rfl
  · split <;> rfl

/-- What an instruction does to the globals. -/
theorem globals_execute : (s.execute m d).state.globals = s.globals ∨
    ∃ name v, d.instr = .globalSet name ∧
      (s.execute m d).state.globals = s.globals.insert name v := by
  unfold execute
  split
  -- The one instruction that sets a global. It fails if there is no value on the stack.
  case h_6 name hd =>
    unfold pop
    split
    · exact .inl rfl
    · next v _ _ => exact .inr ⟨name, v, hd, rfl⟩
  case h_4 => exact .inl (globals_pop fun v u hu => hu)
  case h_7 name _ => exact .inl (globals_call name)
  case h_8 => exact .inl globals_ret
  case h_9 label _ => exact .inl (globals_branch label)
  case h_10 label _ =>
    refine .inl (globals_pop fun v u hu => ?_)
    split
    · exact hu
    · exact (globals_branch label).trans hu
  case h_15 =>
    refine .inl (globals_pop fun v u hu => ?_)
    split
    · exact hu
    · split <;> exact hu
  case h_16 =>
    refine .inl (globals_pop fun rhs u hu => ?_)
    rw [← hu]
    refine globals_pop fun lhs w hw => ?_
    split <;> exact hw
  case h_17 =>
    refine .inl (globals_pop fun rhs u hu => ?_)
    rw [← hu]
    exact globals_pop fun lhs w hw => hw
  all_goals exact .inl rfl

/-- **A move changes at most one global**, the one that the next instruction sets. -/
theorem globals_step (m : Module) (limit : Nat) (s : State) :
    (s.step m limit).state.globals = s.globals ∨
    ∃ name v, s.IsSetting name ∧ (s.step m limit).state.globals = s.globals.insert name v := by
  unfold step
  split
  case h_1 => exact .inl globals_fallOff
  case h_3 d code rest htodo =>
    dsimp only
    split
    · exact .inl rfl
    · rcases globals_execute (m := m) (d := d)
        (s := { s.goOn (.seq code :: rest) s.current.stack with steps := s.steps + 1 })
        with hsame | ⟨name, v, hd, hset⟩
      · exact .inl hsame
      · exact .inr ⟨name, v, ⟨d, code, rest, htodo, hd⟩, hset⟩
  case h_5 =>
    dsimp only
    split <;> exact .inl rfl
  all_goals exact .inl rfl

/-! ## Calls -/

/-- A function that has been called starts. -/
def Starts (m : Module) (a : Activation) : Prop :=
  ∃ name g args, m.function? name = some g ∧ g.activate? args = some a

/-- What a call has started is a function with fresh locals. -/
theorem starts_of_call {name : Text} {caller : Activation} (h : s.call m name = .running t)
    (hcallers : t.callers = caller :: s.callers) : Starts m t.current := by
  unfold call at h
  dsimp only at h
  split at h
  · cases h
  split at h
  · split at h
    · cases h
    · -- An import gives its value at once, and nobody waits for it.
      cases h
      exact absurd hcallers List.ne_cons_self
  · split at h
    · cases h
    · next callee hcallee =>
      cases h
      obtain ⟨g, hg, hstart⟩ := Option.bind_eq_some_iff.mp hcallee
      exact ⟨name, g, _, hg, hstart⟩

theorem starts_of_step {name : Text} {caller : Activation}
    (htodo : s.current.todo = .seq (d :: code) :: rest) (hd : d.instr = .call name)
    (h : s.step m limit = .running t) (hcallers : t.callers = caller :: s.callers) :
    Starts m t.current := by
  unfold step at h
  rw [htodo] at h
  dsimp only at h
  split at h
  · cases h
  · rw [execute, hd] at h
    exact starts_of_call h hcallers

/-- A move that sets a global does not call. -/
theorem callers_of_isSetting {name : Text} (hset : s.IsSetting name)
    (h : s.step m limit = .running t) : t.callers = s.callers := by
  obtain ⟨d, code, rest, htodo, hd⟩ := hset
  unfold step at h
  rw [htodo] at h
  dsimp only at h
  split at h
  · cases h
  · rw [execute, hd] at h
    obtain ⟨v, stack, h⟩ := pop_eq_running h
    cases h
    rfl

/-- At the start of a call the globals are as they were before. -/
theorem globals_of_called {caller : Activation} (h : s.step m limit = .running t)
    (hcallers : t.callers = caller :: s.callers) : t.globals = s.globals := by
  rcases globals_step m limit s with hsame | ⟨name, v, hset, -⟩
  · rwa [h] at hsame
  · rw [callers_of_isSetting hset h] at hcallers
    exact absurd hcallers List.ne_cons_self

/-! ## Parts of runs -/

/-- The run comes from `s` to `t`, and no state on the way, with these two, is one where what is
looked at has ended. -/
inductive Until (m : Module) (limit : Nat) (ended : State → Prop) : State → State → Prop
  | here {s : State} (going : ¬ ended s) : Until m limit ended s s
  | move {s t u : State} (going : ¬ ended s) (step : s.step m limit = .running t)
      (rest : Until m limit ended t u) : Until m limit ended s u

/-- What every move keeps that is made before the end holds until the end. -/
theorem Until.keeps {ended P : State → Prop}
    (hstep : ∀ s t, P s → ¬ ended s → s.step m limit = .running t → P t)
    (h : Until m limit ended s t) (hs : P s) : P t ∧ ¬ ended t := by
  induction h with
  | here going => exact ⟨hs, going⟩
  | move going step _ ih => exact ih (hstep _ _ hs going step)

/-- If no move that is made before the end changes globals, they stay as they are, also in the move
that leads to the end or to a failure. -/
theorem Until.globals {ended P : State → Prop}
    (hstep : ∀ s t, P s → ¬ ended s → s.step m limit = .running t → P t)
    (hsame : ∀ s, P s → ¬ ended s → (s.step m limit).state.globals = s.globals)
    (h : Until m limit ended s t) (hs : P s) :
    t.globals = s.globals ∧ (t.step m limit).state.globals = s.globals := by
  -- That the globals are those at the start is kept together with what makes moves keep them.
  have hkept := h.keeps (P := fun u => P u ∧ u.globals = s.globals) ?_ ⟨hs, rfl⟩
  · obtain ⟨⟨ht, hglobals⟩, hgoing⟩ := hkept
    exact ⟨hglobals, (hsame t ht hgoing).trans hglobals⟩
  · rintro u w ⟨hu, hglobals⟩ hgoing hmove
    refine ⟨hstep u w hu hgoing hmove, ?_⟩
    have hw := hsame u hu hgoing
    rw [hmove] at hw
    exact hw.trans hglobals

end State

end WatCompiler
