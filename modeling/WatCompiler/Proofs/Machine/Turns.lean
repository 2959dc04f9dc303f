import WatCompiler.Proofs.Machine.Moves

/-!
# What a move does to what is left to do

Where the machine goes does not depend on much: the function that runs goes on, calls another one,
or goes back to its caller, and what it has left to do is known from the instruction up to the
choice of a branch or an arm (`turn_of_step`). Nothing is asked of the code or the operands here.

`GetsTo` follows one function until it comes to a given place for the first time. What the function
itself has left to do changes only with its own moves (`watches_of_step`).
-/

namespace WatCompiler.State

variable {m : Module} {limit : Nat} {s t : State}

/-- The first of the callers goes on, perhaps with other operands. -/
def GoesBack (callers : List Activation) (t : State) : Prop :=
  ∃ caller stack, callers = caller :: t.callers ∧ t.current = { caller with stack := stack }

/-- What the instruction `d` in front of `code` and `rest` can lead to in a function with the given
callers. -/
inductive Turn (d : Datum) (code : List Datum) (rest : List Control) (waiting : List Activation)
    (t : State) : Prop
  /-- The function goes on with the next instruction. A conditional then had no arm to choose. -/
  | goesOn (callers : t.callers = waiting) (todo : t.current.todo = .seq code :: rest)
      (ne_ret : d.instr ≠ .ret)
      (noArm : ∀ arms, d.instr = .cond arms → ∃ v, chosenArm v arms = none)
  | entersBlock {label : Datum} {body : List Datum} (height : Nat)
      (instr : d.instr = .block (some label) body) (callers : t.callers = waiting)
      (todo : t.current.todo = .seq body :: .block label.text height :: .seq code :: rest)
  | entersLoop {label : Datum} {body : List Datum} (height : Nat)
      (instr : d.instr = .loop (some label) body) (callers : t.callers = waiting)
      (todo : t.current.todo = .seq body :: .loop label.text height body :: .seq code :: rest)
  | chooses {arms : List Datum} {arm head : Datum} {body : List Datum}
    (instr : d.instr = .cond arms)
      (mem : arm ∈ arms) (items : arm.items = head :: body) (callers : t.callers = waiting)
      (todo : t.current.todo = .seq body :: .seq code :: rest)
  | branches {label : Text} (stack : OperandStack)
      (instr : d.instr = .br label ∨ d.instr = .brIf label) (callers : t.callers = waiting)
      (todo : t.current.todo = (branchTo label stack rest).1)
  | calls {name : Text} {caller : Activation} (instr : d.instr = .call name)
      (callers : t.callers = caller :: waiting) (todo : caller.todo = .seq code :: rest)
  | returns (instr : d.instr = .ret) (back : GoesBack waiting t)
  /-- A return has started a loop without a name again. -/
  | restarts (stack : OperandStack) (instr : d.instr = .ret) (callers : t.callers = waiting)
      (todo : t.current.todo = (returnFrom stack rest).1) (ne_nil : t.current.todo ≠ [])

/-- An operand was there to be taken. -/
theorem pop_eq_running {next : Int32 → State → Progress} (h : s.pop next = .running t) :
    ∃ v stack, next v { s with current := { s.current with stack := stack } } = .running t := by
  unfold pop at h
  split at h
  · cases h
  · next v stack _ => exact ⟨v, stack, h⟩

/-- A function that gives back a value goes on in its caller. -/
theorem goesBack_of_giveBack {v : Int32} (h : s.giveBack v = .running t) :
    GoesBack s.callers t := by
  unfold giveBack at h
  split at h
  · cases h
  · next caller callers hcallers =>
    cases h
    exact ⟨caller, _, hcallers, rfl⟩

theorem goesBack_of_leave (h : s.leave = .running t) : GoesBack s.callers t := by
  unfold leave at h
  split at h
  · obtain ⟨v, stack, h⟩ := pop_eq_running h
    have hback := goesBack_of_giveBack h
    exact hback
  · exact goesBack_of_giveBack h

variable {d : Datum} {code : List Datum} {rest : List Control}

theorem turn_of_branch {label : Text} (hd : d.instr = .br label ∨ d.instr = .brIf label)
    (htodo : s.current.todo = .seq code :: rest) (h : s.branch label = .running t) :
    Turn d code rest s.callers t := by
  have hother : d.instr ≠ .ret ∧ ∀ arms, d.instr ≠ .cond arms := by
    rcases hd with hd | hd
    · rw [hd]
      exact ⟨nofun, nofun⟩
    · rw [hd]
      exact ⟨nofun, nofun⟩
  unfold branch at h
  split at h
  · cases h
    exact .goesOn rfl htodo hother.1 fun arms harms => absurd harms (hother.2 arms)
  · cases h
    refine .branches s.current.stack hd rfl ?_
    show (branchTo label s.current.stack s.current.todo).1 = _
    rw [htodo, branchTo]

theorem turn_of_ret (hd : d.instr = .ret) (htodo : s.current.todo = .seq code :: rest)
    (h : s.ret = .running t) : Turn d code rest s.callers t := by
  unfold ret at h
  dsimp only at h
  rw [htodo, returnFrom] at h
  split at h
  · have hback := goesBack_of_leave h
    exact .returns hd hback
  · next hne =>
    cases h
    refine .restarts s.current.stack hd rfl rfl fun hnil => hne ?_
    exact List.isEmpty_iff.mpr hnil

/-- A call starts a function, or it is one of the host's and goes on behind itself. -/
theorem turn_of_call {name : Text} (hd : d.instr = .call name)
    (htodo : s.current.todo = .seq code :: rest) (h : s.call m name = .running t) :
    Turn d code rest s.callers t := by
  unfold call at h
  dsimp only at h
  split at h
  · cases h
  split at h
  · split at h
    · cases h
    · cases h
      exact .goesOn rfl htodo (by rw [hd]; nofun) (by rw [hd]; nofun)
  · split at h
    · cases h
    · cases h
      exact .calls hd rfl htodo

/-- Each instruction goes on behind itself, into its body, to a label, or to another function. -/
theorem turn_of_execute (htodo : s.current.todo = .seq code :: rest)
    (h : s.execute m d = .running t) : Turn d code rest s.callers t := by
  -- An instruction that only works on values goes on.
  have hflat : ∀ {u : State}, u.callers = s.callers → u.current.todo = s.current.todo →
      d.instr ≠ .ret → (∀ arms, d.instr ≠ .cond arms) → Turn d code rest s.callers u := by
    intro u hcallers hu hret hcond
    exact .goesOn hcallers (hu.trans htodo) hret fun arms harms => absurd harms (hcond arms)
  unfold execute at h
  split at h
  case h_1 hd | h_3 hd | h_5 hd =>
    cases h
    exact hflat rfl rfl (by simp [hd]) (by simp [hd])
  case h_2 | h_11 | h_13 => cases h
  case h_4 hd | h_6 hd =>
    obtain ⟨v, stack, h⟩ := pop_eq_running h
    cases h
    exact hflat rfl rfl (by simp [hd]) (by simp [hd])
  case h_7 hd => exact turn_of_call hd htodo h
  case h_8 hd => exact turn_of_ret hd htodo h
  case h_9 hd => exact turn_of_branch (.inl hd) htodo h
  case h_10 hd =>
    obtain ⟨v, stack, h⟩ := pop_eq_running h
    split at h
    · cases h
      exact hflat rfl rfl (by simp [hd]) (by simp [hd])
    · have hturn := turn_of_branch (.inr hd) (by exact htodo) h
      exact hturn
  case h_12 hd =>
    cases h
    refine .entersBlock s.current.stack.height hd rfl ?_
    rw [← htodo]
    rfl
  case h_14 hd =>
    cases h
    refine .entersLoop s.current.stack.height hd rfl ?_
    rw [← htodo]
    rfl
  case h_15 arms hd =>
    obtain ⟨v, stack, h⟩ := pop_eq_running h
    split at h
    · next harm =>
      cases h
      refine .goesOn rfl htodo (by simp [hd]) fun arms' harms => ?_
      rw [hd] at harms
      cases harms
      exact ⟨v, harm⟩
    · next arm harm =>
      split at h
      · cases h
      · next head body hitems =>
        cases h
        refine .chooses hd (List.mem_of_find?_eq_some harm) hitems rfl ?_
        rw [← htodo]
        rfl
  case h_16 hd =>
    obtain ⟨rhs, stack, h⟩ := pop_eq_running h
    obtain ⟨lhs, stack', h⟩ := pop_eq_running h
    split at h
    · cases h
    · cases h
      exact hflat rfl rfl (by simp [hd]) (by simp [hd])
  case h_17 hd =>
    obtain ⟨rhs, stack, h⟩ := pop_eq_running h
    obtain ⟨lhs, stack', h⟩ := pop_eq_running h
    cases h

/-- Where a move leads that executes an instruction. -/
theorem turn_of_step (htodo : s.current.todo = .seq (d :: code) :: rest)
    (h : s.step m limit = .running t) : Turn d code rest s.callers t := by
  unfold step at h
  rw [htodo] at h
  dsimp only at h
  split at h
  · cases h
  · have hturn := turn_of_execute rfl h
    exact hturn

/-! ## The functions that wait -/

/-- What a move can do to the functions that wait. -/
inductive Shift (waiting : List Activation) (t : State) : Prop
  | stays (callers : t.callers = waiting)
  | calls (caller : Activation) (callers : t.callers = caller :: waiting)
  | gives (back : GoesBack waiting t)

theorem shift_of_turn {waiting : List Activation} (h : Turn d code rest waiting t) :
    Shift waiting t := by
  cases h with
  | goesOn callers => exact .stays callers
  | entersBlock _ _ callers => exact .stays callers
  | entersLoop _ _ callers => exact .stays callers
  | chooses _ _ _ callers => exact .stays callers
  | branches _ _ callers => exact .stays callers
  | restarts _ _ callers => exact .stays callers
  | calls _ callers => exact .calls _ callers
  | returns _ back => exact .gives back

/-- A move stays in its function, calls one or goes back to the caller. -/
theorem shift_of_step (h : s.step m limit = .running t) : Shift s.callers t := by
  cases htodo : s.current.todo with
  | nil =>
    rw [step, htodo] at h
    change s.fallOff = _ at h
    unfold fallOff at h
    dsimp only at h
    split at h
    · exact .gives (goesBack_of_leave h)
    · cases h
  | cons c rest =>
    cases c with
    | seq code =>
      cases code with
      | nil =>
        rw [step, htodo] at h
        cases h
        exact .stays rfl
      | cons d code => exact shift_of_turn (turn_of_step htodo h)
    | block name height =>
      rw [step, htodo] at h
      cases h
      exact .stays rfl
    | loop name height body =>
      rw [step, htodo] at h
      dsimp only at h
      split at h
      · cases h
        exact .stays rfl
      · cases h
        exact .stays rfl

/-! ## One function until it comes to a place -/

section Place

variable {callers : List Activation} {after : List Control}

/-- From `s` the run comes to `t`, where the function above `callers` goes on with `after`. It has
not been there since `s`, and it has not gone back to its caller. -/
inductive GetsTo (m : Module) (limit : Nat) (callers : List Activation) (after : List Control) :
    State → State → Prop
  | last {s t : State} (step : s.step m limit = .running t) (same : t.callers = callers)
      (todo : t.current.todo = after) : GetsTo m limit callers after s t
  | more {s t u : State} (step : s.step m limit = .running t)
      (alive : callers.length ≤ t.callers.length)
      (before : t.callers = callers → t.current.todo ≠ after)
      (rest : GetsTo m limit callers after t u) : GetsTo m limit callers after s u

/-- There is only one way to a place. -/
theorem GetsTo.unique {u : State} (h : GetsTo m limit callers after s t)
    (h' : GetsTo m limit callers after s u) : t = u := by
  induction h with
  | last step same todo =>
    cases h' with
    | last step' =>
      cases step.symm.trans step'
      rfl
    | more step' _ before =>
      cases step.symm.trans step'
      exact absurd todo (before same)
  | more step _ before _ ih =>
    cases h' with
    | last step' same todo =>
      cases step.symm.trans step'
      exact absurd todo (before same)
    | more step' _ _ rest' =>
      cases step.symm.trans step'
      exact ih rest'

/-- What every move on the way keeps holds at the end. -/
theorem GetsTo.keeps {P : State → Prop}
    (hstep : ∀ s t, P s → (s.callers = callers → s.current.todo ≠ after) →
      s.step m limit = .running t → callers.length ≤ t.callers.length → P t)
    (h : GetsTo m limit callers after s t) (hs : P s)
    (hbefore : s.callers = callers → s.current.todo ≠ after) :
    P t ∧ t.callers = callers ∧ t.current.todo = after := by
  induction h with
  | last step same todo =>
    exact ⟨hstep _ _ hs hbefore step (Nat.le_of_eq (congrArg List.length same.symm)), same, todo⟩
  | more step alive before _ ih => exact ih (hstep _ _ hs hbefore step alive) before

/-- The function above `callers` has something left to do that has the property `P`. -/
def Watches (callers : List Activation) (P : List Control → Prop) (s : State) : Prop :=
  ∃ above a, s.current :: s.callers = above ++ a :: callers ∧ P a.todo

/-- A property of what one function has left to do is kept if its own moves keep it. -/
theorem watches_of_step {P : List Control → Prop}
    (hown : P s.current.todo → s.callers = callers → s.step m limit = .running t →
      (t.callers = callers ∧ P t.current.todo) ∨
      (∃ caller, t.callers = caller :: callers ∧ P caller.todo) ∨
      t.callers.length < callers.length)
    (hs : Watches callers P s) (hstep : s.step m limit = .running t)
    (halive : callers.length ≤ t.callers.length) : Watches callers P t := by
  obtain ⟨above, a, hwaiting, ha⟩ := hs
  cases above with
  | nil =>
    cases hwaiting
    rcases hown ha rfl hstep with ⟨hcallers, hP⟩ | ⟨caller, hcallers, hP⟩ | hover
    · exact ⟨[], t.current, by rw [hcallers, List.nil_append], hP⟩
    · exact ⟨[t.current], caller, by rw [hcallers, List.singleton_append], hP⟩
    · omega
  | cons b above =>
    have hcallers : s.callers = above ++ a :: callers := (List.cons.inj hwaiting).2
    cases shift_of_step hstep with
    | stays same => exact ⟨t.current :: above, a, by rw [same, hcallers, List.cons_append], ha⟩
    | calls caller same =>
      exact ⟨t.current :: caller :: above, a, by
        rw [same, hcallers, List.cons_append, List.cons_append], ha⟩
    | gives back =>
      obtain ⟨caller, stack, hback, hcurrent⟩ := back
      rw [hcallers] at hback
      cases above with
      | nil =>
        cases hback
        exact ⟨[], t.current, rfl, by rw [hcurrent]; exact ha⟩
      | cons c above =>
        have hrest : above ++ a :: callers = t.callers := (List.cons.inj hback).2
        exact ⟨t.current :: above, a, by rw [← hrest, List.cons_append], ha⟩

end Place

end WatCompiler.State
