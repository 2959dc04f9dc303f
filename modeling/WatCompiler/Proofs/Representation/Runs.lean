import WatCompiler.Proofs.Machine.Turns
import WatCompiler.Proofs.Representation.Step

/-!
# What whole runs keep

The functions that have been called stand one above the other, and each waits for a value of the
type of the one above it (`Stacked`). A move changes the topmost one only, so what one move keeps in
a function, every move keeps in all of them (`stacked_step`).

The lowest function is left open. At the bottom of a run it is the code of the top-level statements
(`inOrder_of_moves`). While an expression is evaluated it is the function with the expression in it,
and what that function has left to do there is the rest of the expression's code, so the value that
the code leaves on the stack is what the typing of the code says (`value_of_getsTo`).
-/

namespace WatCompiler.Representation

open Code

variable {p : Program Ty} {m : Module} {limit : Nat} {s t : State}

/-! ## Functions that wait -/

/-- Calls of the program's functions above a lowest function that `base` describes. -/
inductive Stacked (p : Program Ty) (base : Known → Activation → Prop) (below : List Activation) :
    Known → Activation → List Activation → Prop
  | base {given : Known} {a : Activation} (fits : base given a) : Stacked p base below given a below
  | above {given : Known} {f : FuncDef Ty} {a caller : Activation} {callers : List Activation}
      (mem : f ∈ p.functions) (runs : Runs p f given a)
      (rest : Stacked p base below [f.returns.Represents] caller callers) :
      Stacked p base below given a (caller :: callers)

section Stacked

variable {base : Known → Activation → Prop} {below : List Activation}

theorem Stacked.length_le {given : Known} {a : Activation} {callers : List Activation}
    (h : Stacked p base below given a callers) : below.length ≤ callers.length := by
  induction h with
  | base => exact Nat.le_refl _
  | above _ _ _ ih => exact Nat.le_succ_of_le ih

/-- With nothing above it, the lowest function is the one at work. -/
theorem Stacked.lowest {given : Known} {a : Activation} {callers : List Activation}
    (h : Stacked p base below given a callers) (hcallers : callers = below) : base given a := by
  cases h with
  | base fits => exact fits
  | above _ _ rest =>
    have hlength := rest.length_le
    rw [← hcallers, List.length_cons] at hlength
    omega

theorem Runs.take {f : FuncDef Ty} {P : Int32 → Prop} {v : Int32} {a : Activation}
    (h : Runs p f [P] a) (hv : P v) : Runs p f [] { a with stack := a.stack.push v } := by
  obtain ⟨g, hg, hfit⟩ := h
  exact ⟨g, hg, hfit.take hv⟩

theorem Stacked.take
    (htake : ∀ {P : Int32 → Prop} {v : Int32} {a : Activation}, base [P] a → P v →
      base [] { a with stack := a.stack.push v })
    {P : Int32 → Prop} {v : Int32} {a : Activation} {callers : List Activation}
    (h : Stacked p base below [P] a callers) (hv : P v) :
    Stacked p base below [] { a with stack := a.stack.push v } callers := by
  cases h with
  | base fits => exact .base (htake fits hv)
  | above mem runs rest => exact .above mem (runs.take hv) rest

end Stacked

/-! ## Moves -/

theorem Outcome.mono {A B : Known → Activation → Prop} {callers : List Activation}
    (h : Outcome p A callers t) (hAB : ∀ {given a}, A given a → B given a) :
    Outcome p B callers t := by
  cases h with
  | stays globals same current => exact .stays globals same (hAB current)
  | calls mem globals more waits starts => exact .calls mem globals more (hAB waits) starts

/-- A call of a function of the program makes a move. It does not come to its end, where it would
have no value to give. -/
theorem Runs.move (hm : IsModule p m) (ht : p.WellTyped) (hp : p.Named) {f : FuncDef Ty}
    (hf : f ∈ p.functions) (hglobals : Represented p.scope.globals.find? s.globals)
    (h : Runs p f [] s.current) (hstep : s.step m limit = .running t) :
    Outcome p (Runs p f) s.callers t ∨ GivesBackValue p f.returns s.callers t := by
  obtain ⟨g, hg, known, hknown, htodo⟩ := h
  have hne : s.current.todo ≠ [] := by
    -- At its end it has no operand, and the machine asks for one.
    intro hnil
    rw [hnil] at htodo
    cases htodo
    have hheight := hknown.height_eq_zero rfl
    rw [State.step, hnil] at hstep
    change s.fallOff = _ at hstep
    rw [State.fallOff, hheight, hknown.func, hg.results, if_neg Nat.zero_ne_one] at hstep
    cases hstep
  have hstage : Stage p ⟨f.scope p.scope, g, []⟩ s.callers known s.current.todo s :=
    ⟨hglobals, rfl, hknown⟩
  rcases hstage.move hm ht hp (inside_function hm hp hf hg) rfl (fun _ => hg.hasResult)
    hne htodo hstep
    with houtcome | ⟨-, hgives⟩
  · exact .inl (houtcome.mono fun hfit => ⟨g, hg, hfit⟩)
  · exact .inr hgives

/-- Every move keeps what is known of all functions, if the moves of the lowest one do. -/
theorem stacked_step (hm : IsModule p m) (ht : p.WellTyped) (hp : p.Named)
    {base : Known → Activation → Prop} {below : List Activation}
    (htake : ∀ {P : Int32 → Prop} {v : Int32} {a : Activation}, base [P] a → P v →
      base [] { a with stack := a.stack.push v })
    (hbase : s.callers = below → base [] s.current → Outcome p base below t)
    (hglobals : Represented p.scope.globals.find? s.globals)
    (h : Stacked p base below [] s.current s.callers) (hstep : s.step m limit = .running t) :
    Represented p.scope.globals.find? t.globals ∧ Stacked p base below [] t.current t.callers := by
  generalize hcallers : s.callers = callers at h
  cases h with
  | base fits =>
    cases hbase hcallers fits with
    | stays globals same current =>
      rw [same]
      exact ⟨globals, .base current⟩
    | calls mem globals more waits starts =>
      rw [more]
      exact ⟨globals, .above mem starts (.base waits)⟩
  | above mem runs rest =>
    rcases runs.move hm ht hp mem hglobals hstep with houtcome | hgives
    · rw [hcallers] at houtcome
      cases houtcome with
      | stays globals same current =>
        rw [same]
        exact ⟨globals, .above mem current rest⟩
      | calls mem' globals more waits starts =>
        rw [more]
        exact ⟨globals, .above mem' starts (.above mem waits rest)⟩
    · -- What is given is what the next function has been waiting for.
      obtain ⟨globals, caller, v, hback, hv, hcurrent⟩ := hgives
      rw [hcallers] at hback
      cases hback
      rw [hcurrent]
      exact ⟨globals, rest.take htake hv⟩

/-! ## Whole runs -/

/-- What is known of a state of a run: globals have values of their types, and so have the variables
of all functions, which stand above the code of the top-level statements. -/
structure InOrder (p : Program Ty) (m : Module) (s : State) : Prop where
  globals : Represented p.scope.globals.find? s.globals
  calls : Stacked p (OperandsFit ⟨p.scope, m.entry, []⟩ (TodoTyped p p.scope)) [] []
    s.current s.callers

theorem inOrder_start (hm : IsModule p m) (ht : p.WellTyped) (hp : p.Named) {room : Option Nat}
    (h : (Machine.ofModule m limit).start? room = some s) : InOrder p m s := by
  obtain ⟨a, ha, rfl⟩ := Option.map_eq_some_iff.mp h
  obtain ⟨table, -, rfl⟩ := Option.map_eq_some_iff.mp ha
  have hknown : OperandsKnown ⟨p.scope, m.entry, []⟩ [] [.seq m.entry.body]
      ⟨m.entry, m.entry.locals.foldl (fun table name => table.insert name 0) table, .empty,
        [.seq m.entry.body]⟩ :=
    ⟨rfl, nofun, ⟨[], rfl, .nil⟩, rfl⟩
  exact ⟨represented_globals hm ht, .base (hknown.holds ⟨typed_entry hm ht hp, rfl⟩)⟩

/-- The top-level statements make a move. At their end the run is over. -/
theorem entry_move (hm : IsModule p m) (ht : p.WellTyped) (hp : p.Named)
    (hglobals : Represented p.scope.globals.find? s.globals) (hcallers : s.callers = [])
    (h : OperandsFit ⟨p.scope, m.entry, []⟩ (TodoTyped p p.scope) [] s.current)
    (hstep : s.step m limit = .running t) :
    Outcome p (OperandsFit ⟨p.scope, m.entry, []⟩ (TodoTyped p p.scope)) [] t := by
  obtain ⟨known, hknown, htodo⟩ := h
  have hne : s.current.todo ≠ [] := by
    intro hnil
    have hresult : s.current.func.hasResult = false := by
      rw [hknown.func]
      exact hm.entry.hasResult
    rw [State.step, hnil] at hstep
    change s.fallOff = _ at hstep
    unfold State.fallOff at hstep
    dsimp only at hstep
    split at hstep
    · rw [State.leave, hresult, if_neg Bool.false_ne_true, State.giveBack, hcallers] at hstep
      cases hstep
    · cases hstep
  have hstage : Stage p ⟨p.scope, m.entry, []⟩ [] known s.current.todo s :=
    ⟨hglobals, hcallers, hknown⟩
  have htop : ¬ p.scope.inFunction = true := Bool.false_ne_true
  rcases hstage.move hm ht hp (inside_entry hm hp) rfl (fun hin => absurd hin htop) hne htodo hstep
    with houtcome | ⟨hin, -⟩
  · exact houtcome
  · exact absurd hin htop

theorem inOrder_step (hm : IsModule p m) (ht : p.WellTyped) (hp : p.Named) (h : InOrder p m s)
    (hstep : s.step m limit = .running t) : InOrder p m t := by
  have hkept := stacked_step hm ht hp OperandsFit.take
    (fun hcallers hbase => entry_move hm ht hp h.globals hcallers hbase hstep) h.globals
      h.calls hstep
  exact ⟨hkept.1, hkept.2⟩

/-- **Every state of a run is in order.** -/
theorem inOrder_of_moves (hm : IsModule p m) (ht : p.WellTyped) (hp : p.Named) {room : Option Nat}
    (hstart : (Machine.ofModule m limit).start? room = some s) {n : Nat}
    (hmoves : State.Moves m limit n s t) : InOrder p m t :=
  hmoves.keeps (fun _ _ h => inOrder_step hm ht hp h) (inOrder_start hm ht hp hstart)

/-! ## Evaluating straight code -/

/-- The rest of straight code that puts a value on the stack is still to do, in front of `rest`. -/
def Remains (p : Program Ty) (scope : Scope) (R : Int32 → Prop) (rest : List Datum)
    (more : List Control) (known : Known) (todo : List Control) : Prop :=
  ∃ code, todo = .seq (code ++ rest) :: more ∧ Straight p scope known code [R]

/-- **The value of straight code.** Where the function comes to what follows the code, there is one
operand in place of those that the code started with. Between the two any functions may have been
called. -/
theorem value_of_getsTo (hm : IsModule p m) (ht : p.WellTyped) (hp : p.Named) {scope : Scope}
    {locals : List Text} (hs : Inside p scope locals)
    (hglobals : Represented p.scope.globals.find? s.globals)
    (hlocals : Represented scope.local? s.current.locals) {known : Known} {code : List Datum}
    {R : Int32 → Prop} (hcode : Straight p scope known code [R]) (hne : code ≠ [])
    {values floor : List Int32} (hlive : s.current.stack.live = values ++ floor)
    (hmeets : Meets known values) {rest : List Datum} {more : List Control}
    (htodo : s.current.todo = .seq (code ++ rest) :: more)
    (h : State.GetsTo m limit s.callers (.seq rest :: more) s t) :
    ∃ v, t.current.stack.live = v :: floor ∧ R v := by
  -- The function with the code in it is the lowest one that is looked at; its own callers stay.
  let base := OperandsFit ⟨scope, s.current.func, floor⟩ (Remains p scope R rest more)
  have hstart : base [] s.current :=
    ⟨known, ⟨rfl, hlocals, ⟨values, hlive, hmeets⟩, rfl⟩, code, htodo, hcode⟩
  have hbefore : s.callers = s.callers → s.current.todo ≠ .seq rest :: more := by
    intro _ he
    rw [htodo] at he
    exact hne (List.append_left_eq_self.mp (Control.seq.inj (List.cons.inj he).1))
  have hkept := h.keeps (P := fun u => Represented p.scope.globals.find? u.globals ∧
    Stacked p base s.callers [] u.current u.callers) ?_ ⟨hglobals, .base hstart⟩ hbefore
  · obtain ⟨⟨-, hstacked⟩, hcallers, hafter⟩ := hkept
    obtain ⟨known', hknown, code', htodo', hcode'⟩ := hstacked.lowest hcallers
    -- At the place after the code nothing of it is left.
    rw [hafter] at htodo'
    have hnil : code' = [] :=
      List.append_left_eq_self.mp (Control.seq.inj (List.cons.inj htodo').1).symm
    subst hnil
    cases hcode'
    obtain ⟨_, hlive', hmeets'⟩ := hknown.operands
    obtain ⟨v, _, hv, hnone, rfl⟩ := List.forall₂_cons_left_iff.mp hmeets'
    rw [List.forall₂_nil_left_iff.mp hnone] at hlive'
    exact ⟨v, hlive', hv⟩
  · rintro u w ⟨hglobals', hstacked⟩ hopen hstep -
    refine stacked_step hm ht hp OperandsFit.take ?_ hglobals' hstacked hstep
    rintro hcallers ⟨known', hknown, code', htodo', hcode'⟩
    -- Some of the code is left, since the place after it has not been reached.
    cases hcode' with
    | nil => exact absurd htodo' (hopen hcallers)
    | cons first others =>
      have hstage : Stage p ⟨scope, s.current.func, floor⟩ s.callers known' u.current.todo u :=
        ⟨hglobals', hcallers, hknown⟩
      rw [htodo'] at hstage
      exact hstage.plain hm ht hp hs first ⟨_, rfl, others⟩ hstep

end WatCompiler.Representation
