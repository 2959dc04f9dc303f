import WatCompiler.Proofs.Basic
import WatCompiler.Machine

/-!
# Modules that run alike

A run looks functions, imports and globals up by their names only. So two modules that give every
name the same meaning run in lockstep (`Module.Alike.run`): each move of one is a move of the other,
and the states differ at most in the order in which the globals are listed.
-/

namespace WatCompiler

/-- Two modules give every name the same meaning, and runs start with the same function. -/
structure Module.Alike (m m' : Module) : Prop where
  globals : m.globals.Alike m'.globals
  imports : m.imports.Alike m'.imports
  functions : ∀ name, m.function? name = m'.function? name
  entry : m.entry = m'.entry

/-- Alike modules declare the same functions. -/
theorem Module.Alike.signature? {m m' : Module} (h : m.Alike m') (name : Text) :
    m.signature? name = m'.signature? name := by
  simp only [Module.signature?, h.imports name, h.functions name]

/-- Two states differ at most in the order of their globals. -/
structure State.Alike (s s' : State) : Prop where
  globals : s.globals.Alike s'.globals
  steps : s.steps = s'.steps
  out : s.out = s'.out
  current : s.current = s'.current
  callers : s.callers = s'.callers

/-- Two moves end or go on in the same way, in states that are alike. -/
inductive Progress.Alike : Progress → Progress → Prop
  | running {s s' : State} (states : s.Alike s') : Alike (.running s) (.running s')
  | ended {s s' : State} (failure : Option Failure) (states : s.Alike s') :
      Alike (.ended s failure) (.ended s' failure)

namespace State

variable {m m' : Module} {s s' : State}

/-! ## One move -/

theorem Alike.goOn (h : s.Alike s') (todo : List Control) (stack : OperandStack) :
    (s.goOn todo stack).Alike (s'.goOn todo stack) := by
  refine ⟨h.globals, h.steps, h.out, ?_, h.callers⟩
  rw [State.goOn, State.goOn, h.current]

theorem Alike.push (h : s.Alike s') (value : Int32) : (s.push value).Alike (s'.push value) := by
  refine ⟨h.globals, h.steps, h.out, ?_, h.callers⟩
  rw [State.push, State.push, h.current]

theorem Alike.fail (h : s.Alike s') (failure : Failure) :
    (s.fail failure).Alike (s'.fail failure) :=
  .ended (some failure) h

/-- Both machines take the same operand. -/
theorem Alike.pop (h : s.Alike s') {next next' : Int32 → State → Progress}
    (hnext : ∀ value {t t' : State}, t.Alike t' → (next value t).Alike (next' value t')) :
    (s.pop next).Alike (s'.pop next') := by
  rw [State.pop, State.pop, ← h.current]
  split
  · exact h.fail _
  · exact hnext _ ⟨h.globals, h.steps, h.out, rfl, h.callers⟩

theorem Alike.giveBack (h : s.Alike s') (value : Int32) :
    (s.giveBack value).Alike (s'.giveBack value) := by
  rw [State.giveBack, State.giveBack, ← h.callers, ← h.current]
  split
  · exact .ended none h
  · exact .running ⟨h.globals, h.steps, h.out, rfl, rfl⟩

/-- Both machines leave the innermost function, and the same one called it. -/
theorem Alike.leave (h : s.Alike s') : s.leave.Alike s'.leave := by
  rw [State.leave, State.leave, ← h.current]
  split
  · exact h.pop fun value {_ _} ht => ht.giveBack value
  · exact h.giveBack 0

theorem Alike.fallOff (h : s.Alike s') : s.fallOff.Alike s'.fallOff := by
  rw [State.fallOff, State.fallOff, ← h.current]
  split
  · exact h.leave
  · exact h.fail _

/-- Both machines go to the same label. -/
theorem Alike.branch (h : s.Alike s') (label : Text) :
    (s.branch label).Alike (s'.branch label) := by
  rw [State.branch, State.branch, ← h.current]
  split
  · exact .running h
  · exact .running (h.goOn _ _)

theorem Alike.ret (h : s.Alike s') : s.ret.Alike s'.ret := by
  rw [State.ret, State.ret, ← h.current]
  dsimp only
  split
  · exact (h.goOn _ _).leave
  · exact .running (h.goOn _ _)

theorem Alike.enter (h : s.Alike s') (close : Control) (body : List Datum) :
    (s.enter close body).Alike (s'.enter close body) := by
  rw [State.enter, State.enter, ← h.current]
  exact .running (h.goOn _ _)

/-- Both machines call the same function: a table of functions in another order finds the same
one. -/
theorem Alike.call (hm : m.Alike m') (h : s.Alike s') (name : Text) :
    (s.call m name).Alike (s'.call m' name) := by
  rw [State.call, State.call, ← h.current, ← hm.signature? name, ← hm.imports name,
    ← hm.functions name]
  dsimp only
  split
  · exact h.fail _
  next args stack _ =>
  -- What is called sees the output and, if it is a function of the module, the callers.
  have ht := h.goOn s.current.todo stack
  have hout : (s'.goOn s.current.todo stack).out = (s.goOn s.current.todo stack).out := ht.out.symm
  rw [hout]
  split
  · split
    · exact ht.fail _
    · refine .running (Alike.push ?_ _)
      exact ⟨ht.globals, ht.steps, rfl, ht.current, ht.callers⟩
  · split
    · exact ht.fail _
    · refine .running ⟨ht.globals, ht.steps, rfl, rfl, ?_⟩
      rw [ht.current, ht.callers]

/-- One instruction keeps machines alike. -/
theorem Alike.execute (hm : m.Alike m') (h : s.Alike s') (d : Datum) :
    (s.execute m d).Alike (s'.execute m' d) := by
  unfold State.execute
  cases d.instr with
  | const value => exact .running (h.push value)
  | badConst fault => exact h.fail _
  | localGet name =>
    dsimp only
    rw [← h.current]
    exact .running (h.push _)
  | localSet name =>
    refine h.pop fun value {t t'} ht => .running ⟨ht.globals, ht.steps, ht.out, ?_, ht.callers⟩
    dsimp only
    rw [ht.current]
  | globalGet name =>
    dsimp only
    rw [← h.globals name]
    exact .running (h.push _)
  | globalSet name =>
    refine h.pop fun value {t t'} ht => .running ?_
    exact ⟨ht.globals.insert name value, ht.steps, ht.out, ht.current, ht.callers⟩
  | call name => exact h.call hm name
  | ret => exact h.ret
  | br label => exact h.branch label
  | brIf label =>
    refine h.pop fun value {t t'} ht => ?_
    split
    · exact .running ht
    · exact ht.branch label
  | block label body =>
    cases label with
    | none => exact h.fail _
    | some label =>
      dsimp only
      rw [← h.current]
      exact h.enter _ _
  | loop label body =>
    cases label with
    | none => exact h.fail _
    | some label =>
      dsimp only
      rw [← h.current]
      exact h.enter _ _
  | cond arms =>
    refine h.pop fun value {t t'} ht => ?_
    split
    · exact .running ht
    · split
      · exact ht.fail _
      · rw [← ht.current]
        exact .running (ht.goOn _ _)
  | arith op =>
    refine h.pop fun rhs {t t'} ht => ht.pop fun lhs {u u'} hu => ?_
    split
    · exact hu.fail _
    · exact .running (hu.push _)
  | unknown head => exact h.pop fun rhs {t t'} ht => ht.pop fun lhs {u u'} hu => hu.fail _

/-- **Moves in lockstep.** -/
theorem Alike.step (hm : m.Alike m') (limit : Nat) (h : s.Alike s') :
    (s.step m limit).Alike (s'.step m' limit) := by
  unfold State.step
  rw [← h.current]
  split
  case h_1 => exact h.fallOff
  case h_2 => exact .running (h.goOn _ _)
  case h_3 d code rest _ =>
    have ht : Alike { s.goOn (.seq code :: rest) s.current.stack with steps := s.steps + 1 }
        { s'.goOn (.seq code :: rest) s.current.stack with steps := s'.steps + 1 } := by
      have hgoOn := h.goOn (.seq code :: rest) s.current.stack
      exact ⟨hgoOn.globals, congrArg (· + 1) h.steps, hgoOn.out, hgoOn.current, hgoOn.callers⟩
    dsimp only
    rw [h.steps] at ht ⊢
    split
    · exact ht.fail _
    · exact ht.execute hm d
  case h_4 => exact .running (h.goOn _ _)
  case h_5 =>
    dsimp only
    split
    · exact .running (h.goOn _ _)
    · exact .running (h.goOn _ _)

/-! ## Runs -/

/-- Runs of as many moves end in the same way, or neither is over. -/
theorem Alike.runFor (hm : m.Alike m') (limit fuel : Nat) (h : s.Alike s') :
    s.runFor m limit fuel = none ∧ s'.runFor m' limit fuel = none ∨
      ∃ t t' failure, s.runFor m limit fuel = some (t, failure) ∧
        s'.runFor m' limit fuel = some (t', failure) ∧ t.Alike t' := by
  induction fuel generalizing s s' with
  | zero => exact .inl ⟨rfl, rfl⟩
  | succ fuel ih =>
    have hstep := h.step hm limit
    rw [State.runFor, State.runFor]
    generalize s.step m limit = progress at hstep ⊢
    generalize s'.step m' limit = progress' at hstep ⊢
    cases hstep with
    | running ht => exact ih ht
    | ended failure ht => exact .inr ⟨_, _, failure, rfl, rfl, ht⟩

end State

/-- Two runs printed the same, ended in the same way, made as many steps and left the same values in
the globals. -/
structure Run.Alike (r r' : Run) : Prop where
  printed : r.printed = r'.printed
  failure : r.failure = r'.failure
  steps : r.machine.steps = r'.machine.steps
  globals : r.machine.globals.Alike r'.machine.globals

/-- **Modules that give every name the same meaning run alike**, whatever the limit of steps is and
however much output is taken: with as many moves, neither run is over or both end in the same
way. -/
theorem Module.Alike.run {m m' : Module} (hm : m.Alike m') (limit : Nat) (room : Option Nat)
    (fuel : Nat) :
    Option.Rel Run.Alike ((Machine.ofModule m limit).run room fuel)
      ((Machine.ofModule m' limit).run room fuel) := by
  have hstart : (Machine.ofModule m' limit).start? room =
      (m.entry.activate? []).map fun current => ⟨m'.globals, 0, .empty room, current, []⟩ := by
    rw [hm.entry]
    rfl
  have hstart' : (Machine.ofModule m limit).start? room =
      (m.entry.activate? []).map fun current => ⟨m.globals, 0, .empty room, current, []⟩ := rfl
  rw [Machine.run, Machine.run, hstart, hstart']
  cases m.entry.activate? [] with
  | none => exact .some ⟨rfl, rfl, rfl, hm.globals⟩
  | some current =>
    have halike : State.Alike ⟨m.globals, 0, .empty room, current, []⟩
        ⟨m'.globals, 0, .empty room, current, []⟩ := ⟨hm.globals, rfl, rfl, rfl, rfl⟩
    show Option.Rel Run.Alike (Option.map _ (State.runFor m limit fuel _))
      (Option.map _ (State.runFor m' limit fuel _))
    rcases halike.runFor hm limit fuel with ⟨hnone, hnone'⟩ | ⟨t, t', failure, ht, ht', halike⟩
    · rw [hnone, hnone']
      exact .none
    · rw [ht, ht']
      exact .some ⟨congrArg Output.text halike.out, rfl, halike.steps, halike.globals⟩

end WatCompiler
