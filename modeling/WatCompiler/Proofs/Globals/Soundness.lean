import WatCompiler.Proofs.Globals.Writes
import WatCompiler.Proofs.Machine.Frame
import WatCompiler.Proofs.Representation.Generated

/-!
# Functions do not write globals

Checking lets a function assign to its own variables only, and the code of an assignment sets what
checking meant. So in runs of compiled modules globals change only at assignments of the top-level
statements, while no function has been called (`globals_of_compile`).

The invariant is `Stack`: all functions that have been called have only code left that sets no
global, and the lowest one is described by a predicate that can be chosen. At the bottom of a run
that is the code of the top-level statements; while an expression is evaluated it is the function
with the expression in it, which has the rest of the expression's code left.
-/

namespace WatCompiler

/-- The code of a part of what is left to do. -/
def Control.code : Control → List Datum
  | .seq code | .loop _ _ code => code
  | .block _ _ => []

namespace Globals

open Code
open State (Starts Until)

/-! ## What is left to do -/

/-- What is left to do sets only globals with the property. -/
def TodoWrites (P : Text → Prop) (todo : List Control) : Prop :=
  ∀ c ∈ todo, ∀ d ∈ c.code, Writes P d

/-- What is left to do sets no global. -/
def Silent (todo : List Control) : Prop := TodoWrites (fun _ => False) todo

section Todo

variable {P : Text → Prop} {todo todo' : List Control}

/-- A branch leads to code that was left already. -/
theorem code_branchTo (label : Text) (stack : OperandStack) (todo : List Control) :
    ∀ c ∈ (branchTo label stack todo).1, ∃ c' ∈ todo, c'.code = c.code := by
  induction todo with
  | nil => exact List.forall_mem_nil _
  | cons first rest ih =>
    have hrest : ∀ c ∈ (branchTo label stack rest).1, ∃ c' ∈ first :: rest, c'.code = c.code := by
      intro c hc
      obtain ⟨c', hc', hcode⟩ := ih c hc
      exact ⟨c', List.mem_cons_of_mem _ hc', hcode⟩
    cases first with
    | seq code => exact hrest
    | block name height =>
      unfold branchTo
      split
      · exact fun c hc => ⟨c, List.mem_cons_of_mem _ hc, rfl⟩
      · exact hrest
    | loop name height body =>
      unfold branchTo
      split
      · -- The body is in front once more, and it is the code of the loop.
        exact List.forall_mem_cons.mpr
          ⟨⟨_, List.mem_cons_self, rfl⟩, fun c hc => ⟨c, hc, rfl⟩⟩
      · exact hrest

theorem code_returnFrom (stack : OperandStack) (todo : List Control) :
    ∀ c ∈ (returnFrom stack todo).1, ∃ c' ∈ todo, c'.code = c.code := by
  induction todo generalizing stack with
  | nil => exact List.forall_mem_nil _
  | cons first rest ih =>
    have hrest : ∀ stack', ∀ c ∈ (returnFrom stack' rest).1,
        ∃ c' ∈ first :: rest, c'.code = c.code := by
      intro stack' c hc
      obtain ⟨c', hc', hcode⟩ := ih stack' c hc
      exact ⟨c', List.mem_cons_of_mem _ hc', hcode⟩
    cases first with
    | seq code => exact hrest stack
    | block name height => exact hrest _
    | loop name height body =>
      unfold returnFrom
      split
      · exact List.forall_mem_cons.mpr
          ⟨⟨_, List.mem_cons_self, rfl⟩, fun c hc => ⟨c, hc, rfl⟩⟩
      · exact hrest stack

/-- It is the code that writes, not what stands around it. -/
theorem TodoWrites.of_code (h : TodoWrites P todo)
    (hcode : ∀ c ∈ todo', ∃ c' ∈ todo, c'.code = c.code) : TodoWrites P todo' := by
  intro c hc d hd
  obtain ⟨c', hc', hsame⟩ := hcode c hc
  exact h c' hc' d (hsame ▸ hd)

theorem todoWrites_cons {c : Control} :
    TodoWrites P (c :: todo) ↔ (∀ d ∈ c.code, Writes P d) ∧ TodoWrites P todo :=
  List.forall_mem_cons

theorem todoWrites_seq_cons {d : Datum} {code : List Datum} :
    TodoWrites P (.seq (d :: code) :: todo) ↔ Writes P d ∧ TodoWrites P (.seq code :: todo) := by
  rw [todoWrites_cons, todoWrites_cons, ← and_assoc]
  exact and_congr_left' List.forall_mem_cons

/-- A global that the next instruction sets is one that what is left to do may set. -/
theorem TodoWrites.of_isSetting {s : State} (h : TodoWrites P s.current.todo) {name : Text}
    (hset : s.IsSetting name) : P name := by
  obtain ⟨d, code, rest, htodo, hd⟩ := hset
  rw [htodo] at h
  exact (todoWrites_seq_cons.mp h).1.of_globalSet hd

end Todo

/-! ## Moves -/

section Moves

variable {m : Module} {limit : Nat} {s t : State}

/-- The function that was at work above `waiting` has such work left, or it waits with such work for
a function that starts. -/
inductive KeepsWork (m : Module) (work : List Control → Prop) (waiting : List Activation)
    (t : State) :
    Prop
  | stays (callers : t.callers = waiting) (todo : work t.current.todo)
  | calls {caller : Activation} (callers : t.callers = caller :: waiting) (todo : work caller.todo)
      (starts : Starts m t.current)

/-- A turn goes on with code that was there, starts a function or goes back. -/
theorem keepsWork_of_turn {P : Text → Prop} {d : Datum} {code : List Datum} {rest : List Control}
    (h : TodoWrites P s.current.todo) (htodo : s.current.todo = .seq (d :: code) :: rest)
    (hstep : s.step m limit = .running t) :
    KeepsWork m (TodoWrites P) s.callers t ∨ State.GoesBack s.callers t := by
  rw [htodo] at h
  obtain ⟨hd, hnext⟩ := todoWrites_seq_cons.mp h
  have hrest := (todoWrites_cons.mp hnext).2
  cases State.turn_of_step htodo hstep with
  | goesOn callers todo =>
    refine .inl (.stays callers ?_)
    rw [todo]
    exact hnext
  | entersBlock height instr callers todo =>
    refine .inl (.stays callers ?_)
    rw [todo]
    exact todoWrites_cons.mpr ⟨hd.of_block instr,
      todoWrites_cons.mpr ⟨List.forall_mem_nil _, hnext⟩⟩
  | entersLoop height instr callers todo =>
    refine .inl (.stays callers ?_)
    rw [todo]
    exact todoWrites_cons.mpr ⟨hd.of_loop instr, todoWrites_cons.mpr ⟨hd.of_loop instr, hnext⟩⟩
  | chooses instr mem items callers todo =>
    refine .inl (.stays callers ?_)
    -- Whichever arm is taken, it sets no more than the conditional.
    have harm := hd.of_cond instr _ mem
    rw [items] at harm
    rw [todo]
    exact todoWrites_cons.mpr ⟨harm, hnext⟩
  | branches stack instr callers todo =>
    refine .inl (.stays callers ?_)
    rw [todo]
    exact hrest.of_code (code_branchTo _ stack rest)
  | restarts stack instr callers todo =>
    refine .inl (.stays callers ?_)
    rw [todo]
    exact hrest.of_code (code_returnFrom stack rest)
  | calls instr callers todo =>
    refine .inl (.calls callers ?_ (State.starts_of_step htodo instr hstep callers))
    rw [todo]
    exact hnext
  | returns instr back => exact .inr back

/-- A move does not bring in code, apart from that of a function that starts. -/
theorem keepsWork_of_step {P : Text → Prop} (h : TodoWrites P s.current.todo)
    (hstep : s.step m limit = .running t) :
    KeepsWork m (TodoWrites P) s.callers t ∨ State.GoesBack s.callers t := by
  cases htodo : s.current.todo with
  | nil =>
    rw [State.step, htodo] at hstep
    change s.fallOff = _ at hstep
    unfold State.fallOff at hstep
    dsimp only at hstep
    split at hstep
    · exact .inr (State.goesBack_of_leave hstep)
    · cases hstep
  | cons c rest =>
    have hrest : TodoWrites P rest := (todoWrites_cons.mp (htodo ▸ h)).2
    cases c with
    | seq code =>
      cases code with
      | nil =>
        rw [State.step, htodo] at hstep
        cases hstep
        exact .inl (.stays rfl hrest)
      | cons d code => exact keepsWork_of_turn h htodo hstep
    | block name height =>
      rw [State.step, htodo] at hstep
      cases hstep
      exact .inl (.stays rfl hrest)
    | loop name height body =>
      have hbody := (todoWrites_cons.mp (htodo ▸ h)).1
      rw [State.step, htodo] at hstep
      dsimp only at hstep
      split at hstep
      · -- A loop without a name never ends, its body is in front again.
        cases hstep
        exact .inl (.stays rfl (todoWrites_cons.mpr ⟨hbody, htodo ▸ h⟩))
      · cases hstep
        exact .inl (.stays rfl hrest)

/-! ## Functions that have been called -/

/-- Functions that set no global, above a lowest one whose work `base` describes. -/
inductive Stack (base : List Control → Prop) (below : List Activation) : List Activation → Prop
  | base {a : Activation} (fits : base a.todo) : Stack base below (a :: below)
  | call {a : Activation} {rest : List Activation} (silent : Silent a.todo)
      (waits : Stack base below rest) : Stack base below (a :: rest)

/-- No function that can be called by its name sets a global. -/
def IsSilent (m : Module) : Prop :=
  ∀ name g, m.function? name = some g → ∀ d ∈ g.body, Writes (fun _ => False) d

theorem IsSilent.starts (hm : IsSilent m) {a : Activation} (h : Starts m a) :
    Silent a.todo := by
  obtain ⟨name, g, args, hg, ha⟩ := h
  obtain ⟨table, -, rfl⟩ := Option.map_eq_some_iff.mp ha
  exact List.forall_mem_singleton.mpr (hm name g hg)

section Stack

variable {base : List Control → Prop} {below : List Activation}

theorem Stack.withStack {caller : Activation} {rest : List Activation}
    (h : Stack base below (caller :: rest)) (stack : OperandStack) :
    Stack base below ({ caller with stack := stack } :: rest) := by
  cases h with
  | base fits => exact .base fits
  | call silent waits => exact .call silent waits

/-- Every move keeps the stack, if the moves of the lowest function do. -/
theorem stack_step (hm : IsSilent m)
    (hbase : s.callers = below → base s.current.todo → KeepsWork m base below t)
    (h : Stack base below (s.current :: s.callers)) (hstep : s.step m limit = .running t) :
    Stack base below (t.current :: t.callers) := by
  generalize hall : s.current :: s.callers = all at h
  cases h with
  | base fits =>
    obtain ⟨rfl, hcallers⟩ := List.cons.inj hall
    cases hbase hcallers fits with
    | stays callers todo =>
      rw [callers]
      exact .base todo
    | calls callers todo starts =>
      rw [callers]
      exact .call (hm.starts starts) (.base todo)
  | call silent waits =>
    obtain ⟨rfl, rfl⟩ := List.cons.inj hall
    rcases keepsWork_of_step silent hstep with hkeeps | ⟨caller, stack, hcallers, hcurrent⟩
    · cases hkeeps with
      | stays callers todo =>
        rw [callers]
        exact .call todo waits
      | calls callers todo starts =>
        rw [callers]
        exact .call (hm.starts starts) (.call todo waits)
    · -- The function is over, and the one that waited for it goes on.
      rw [hcallers] at waits
      rw [hcurrent]
      exact waits.withStack stack

/-- Only the lowest function can be about to set a global. -/
theorem Stack.of_isSetting (h : Stack base below (s.current :: s.callers)) {name : Text}
    (hset : s.IsSetting name) : s.callers = below ∧ base s.current.todo := by
  generalize hall : s.current :: s.callers = all at h
  cases h with
  | base fits =>
    obtain ⟨rfl, hcallers⟩ := List.cons.inj hall
    exact ⟨hcallers, fits⟩
  | call silent waits =>
    obtain ⟨rfl, rfl⟩ := List.cons.inj hall
    exact (silent.of_isSetting hset).elim

end Stack

/-! ## Top-level statements and expressions -/

/-- The code at the bottom of a run makes a move. There is nothing that it could go back to. -/
theorem keepsWork_top {P : Text → Prop} (hcallers : s.callers = [])
    (h : TodoWrites P s.current.todo)
    (hstep : s.step m limit = .running t) : KeepsWork m (TodoWrites P) [] t := by
  rcases keepsWork_of_step h hstep with hkeeps | ⟨caller, stack, hback, -⟩
  · rwa [hcallers] at hkeeps
  · rw [hcallers] at hback
    cases hback

/-- The rest of an expression's code is left to do, in front of `rest`. -/
def Evaluating (rest : List Datum) (more todo : List Control) : Prop :=
  ∃ code : List Instr, (∀ i ∈ code, i.IsValue) ∧ todo = .seq (code.map Instr.form ++ rest) :: more

section Evaluating

variable {rest : List Datum} {more : List Control}

/-- Before the evaluation is over, the next instruction is one of the expression's. -/
theorem Evaluating.exists_cons {todo : List Control} (h : Evaluating rest more todo)
    (hopen : todo ≠ .seq rest :: more) :
    ∃ (i : Instr) (code : List Instr), i.IsValue ∧ (∀ j ∈ code, j.IsValue) ∧
      todo = .seq (i.form :: (code.map Instr.form ++ rest)) :: more := by
  obtain ⟨code, hcode, htodo⟩ := h
  cases code with
  | nil => exact absurd htodo hopen
  | cons i code =>
    obtain ⟨hi, hcode⟩ := List.forall_mem_cons.mp hcode
    exact ⟨i, code, hi, hcode, htodo⟩

/-- No expression sets a global variable on its way. -/
theorem Evaluating.not_isSetting (h : Evaluating rest more s.current.todo)
    (hopen : s.current.todo ≠ .seq rest :: more) (name : Text) : ¬ s.IsSetting name := by
  rintro ⟨d, code, others, htodo, hd⟩
  obtain ⟨i, code', hi, -, htodo'⟩ := h.exists_cons hopen
  rw [htodo'] at htodo
  cases htodo
  rw [hi.isFlat.instr_form] at hd
  exact hi.ne_globalSet name hd

theorem Evaluating.keeps (h : Evaluating rest more s.current.todo)
    (hopen : s.current.todo ≠ .seq rest :: more) (hstep : s.step m limit = .running t) :
    KeepsWork m (Evaluating rest more) s.callers t := by
  obtain ⟨i, code, hi, hcode, htodo⟩ := h.exists_cons hopen
  have hform := hi.isFlat.instr_form
  -- The instruction neither branches nor returns, so what follows it is what is left.
  cases State.turn_of_step htodo hstep with
  | goesOn callers todo => exact .stays callers ⟨code, hcode, todo⟩
  | calls instr callers todo =>
    exact .calls callers ⟨code, hcode, todo⟩ (State.starts_of_step htodo instr hstep callers)
  | entersBlock _ instr | entersLoop _ instr | chooses instr | returns instr | restarts _ instr =>
    rw [hform] at instr
    rw [instr] at hi
    exact hi.elim
  | branches _ instr =>
    rw [hform] at instr
    rcases instr with instr | instr
    · rw [instr] at hi
      exact hi.elim
    · rw [instr] at hi
      exact hi.elim

end Evaluating

end Moves

/-! ## Compiled modules -/

/-- The top-level statements of the program assign to the variable of that name in its module. -/
def Assigns (p : Program Ty) (name : Text) : Prop :=
  ∃ info target value, Stmt.assign info target value ∈ innerAll p.stmts ∧ name = identifier target

section Compiled

variable {p : Program Ty} {m : Module}

theorem writes_initialValues {P : Text → Prop} {vs : List (VarDef Ty)} {init : List Instr}
    (h : initialValues vs = .ok init) : ∀ d ∈ Layout.data (lines init), Writes P d :=
  writes_lines (forall_mem_initialValues h (fun _ => ⟨trivial, nofun⟩) fun _ _ => ⟨trivial, nofun⟩)

/-- A checked function assigns to its own variables only, also where they hide globals. -/
theorem assignsTo_function (hm : IsModule p m) (ht : p.WellTyped) (hp : p.Named) {f : FuncDef Ty}
    (hf : f ∈ p.functions) {g : Func} (hg : IsFunction f g) :
    AssignsTo (ownNames f) (fun _ => False) (innerAll f.stmts) := by
  intro info target value hmem
  have htyped := forall_mem_innerAll Stmt.WellTyped.children f.stmts
    (stmtsTyped_iff.mp (ht.functions f hf).body) _ hmem
  have htarget : (f.scope p.scope).assignable? target = some value.info.ann := htyped.2
  unfold Scope.assignable? at htarget
  cases hlocal : (f.scope p.scope).local? target with
  | some type => exact .inl ((Representation.inside_function hm hp hf hg).mem hlocal)
  | none =>
    -- In a function only its own variables can be assigned to.
    rw [hlocal] at htarget
    cases htarget

/-- Functions of a module write no global variable. -/
theorem isSilent_of_isModule (hm : IsModule p m) (ht : p.WellTyped) (hp : p.Named) :
    IsSilent m := by
  intro name g hg
  obtain ⟨gs, hgs, hfunctions⟩ := hm.functions
  have hname : g.name = some name := by simpa using List.find?_some hg
  have hmem := List.mem_of_find?_eq_some hg
  rw [hfunctions] at hmem
  rcases List.mem_append.mp hmem with hmem | hmem
  · obtain ⟨f, hf, hfunction⟩ := exists_of_forall₂ hgs hmem
    obtain ⟨init, code, next, hinit, hcode, hbody⟩ := hfunction.body
    rw [hbody, data_append, data_append]
    exact List.forall_mem_append.mpr ⟨List.forall_mem_append.mpr ⟨writes_initialValues hinit,
      writes_stmts f.stmts hcode (assignsTo_function hm ht hp hf hfunction)⟩,
      writes_lines (by simp [Instr.IsFlat])⟩
  · -- The code of the top-level statements has no name to be called by.
    rw [List.mem_singleton.mp hmem, hm.entry.name] at hname
    cases hname

/-- The entry writes what the program assigns to. -/
theorem writes_entry (hm : IsModule p m) : ∀ d ∈ m.entry.body, Writes (Assigns p) d := by
  obtain ⟨code, next, hcode, hbody⟩ := hm.entry.body
  rw [hbody]
  exact writes_stmts p.stmts hcode
    fun info target value hmem => .inr ⟨info, target, value, hmem, rfl⟩

/-- What is known of a state of a run: above the code of the top-level statements, which sets what
they assign to, nothing sets a global. -/
def InFrame (p : Program Ty) (s : State) : Prop :=
  Stack (TodoWrites (Assigns p)) [] (s.current :: s.callers)

theorem inFrame_start (hm : IsModule p m) {machine : Machine} (hcode : machine.code = m)
    {room : Option Nat} {s : State} (h : machine.start? room = some s) : InFrame p s := by
  subst hcode
  obtain ⟨a, ha, rfl⟩ := Option.map_eq_some_iff.mp h
  obtain ⟨table, -, rfl⟩ := Option.map_eq_some_iff.mp ha
  exact .base (List.forall_mem_singleton.mpr (writes_entry hm))

/-- The code of the top-level statements has no parameters, so a run can start. -/
theorem exists_start (hm : IsModule p m) (machine : Machine) (hcode : machine.code = m)
    (room : Option Nat) : ∃ s, machine.start? room = some s := by
  have hparams : machine.code.entry.params = [] := by
    rw [hcode]
    exact hm.entry.params
  rw [Machine.start?, Func.activate?, hparams]
  exact ⟨_, rfl⟩

variable {limit : Nat} {s t : State}

/-- A move keeps the machine in its frame: functions silent, the entry writing what it may. -/
theorem inFrame_step (hsilent : IsSilent m) (h : InFrame p s)
    (hstep : s.step m limit = .running t) :
    InFrame p t :=
  stack_step hsilent (fun hcallers hbase => keepsWork_top hcallers hbase hstep) h hstep

/-- So do any number of moves. -/
theorem inFrame_of_moves (hsilent : IsSilent m) (hs : InFrame p s) {n : Nat}
    (h : State.Moves m limit n s t) : InFrame p t :=
  h.keeps (fun _ _ => inFrame_step hsilent) hs

/-! ## Globals during calls and expressions -/

theorem globals_of_not_isSetting (h : ∀ name, ¬ s.IsSetting name) :
    (s.step m limit).state.globals = s.globals := by
  rcases State.globals_step m limit s with hsame | ⟨name, v, hset, -⟩
  · exact hsame
  · exact absurd hset (h name)

/-- While a function runs that has been called, moves leave the globals alone. -/
theorem InFrame.globals_of_callers (h : InFrame p s) (hcallers : s.callers ≠ []) :
    (s.step m limit).state.globals = s.globals :=
  globals_of_not_isSetting fun _ hset => hcallers (Stack.of_isSetting h hset).1

/-- Until a call is over the globals are those at its start. -/
theorem InFrame.globals_of_call (hsilent : IsSilent m) {depth : Nat} (hs : InFrame p s)
    (h : Until m limit (fun x => x.callers.length ≤ depth) s t) :
    t.globals = s.globals ∧ (t.step m limit).state.globals = s.globals := by
  refine h.globals (fun _ _ hx _ => inFrame_step hsilent hx) ?_ hs
  intro x hx hdeep
  refine hx.globals_of_callers fun hnil => hdeep ?_
  rw [hnil]
  exact Nat.zero_le depth

/-- Until an expression has been evaluated the globals are those at the start of its evaluation. -/
theorem globals_of_evaluating (hsilent : IsSilent m) {rest : List Datum} {more : List Control}
    (hs : Evaluating rest more s.current.todo)
    (h : Until m limit (fun x => x.callers = s.callers ∧ x.current.todo = .seq rest :: more) s t) :
    t.globals = s.globals ∧ (t.step m limit).state.globals = s.globals := by
  -- The function with the expression in it is the lowest one that is looked at.
  refine h.globals (P := fun x => Stack (Evaluating rest more) s.callers (x.current :: x.callers))
    ?_ ?_ (.base hs)
  · intro x y hx hopen hstep
    refine stack_step hsilent (fun hcallers hbase => ?_) hx hstep
    rw [← hcallers]
    exact hbase.keeps (fun htodo => hopen ⟨hcallers, htodo⟩) hstep
  · intro x hx hopen
    refine globals_of_not_isSetting fun name hset => ?_
    obtain ⟨hcallers, hbase⟩ := hx.of_isSetting hset
    exact hbase.not_isSetting (fun htodo => hopen ⟨hcallers, htodo⟩) name hset

/-- In a state of a run, globals change only at assignments of the top-level statements. -/
structure Steady (p : Program Ty) (m : Module) (limit : Nat) (t : State) : Prop where
  /-- A move changes no global, or it is made while no function has been called, at an assignment of
  the top-level statements to the one global that changes. -/
  moves : (t.step m limit).state.globals = t.globals ∨
    ∃ info target value v, Stmt.assign info target value ∈ innerAll p.stmts ∧ t.callers = [] ∧
      t.IsSetting (identifier target) ∧
      (t.step m limit).state.globals = t.globals.insert (identifier target) v
  /-- If a function is called, the globals stay as they are until it has given back its value or the
  run has failed, with all calls in between. -/
  calls : ∀ caller u, t.step m limit = .running u → u.callers = caller :: t.callers →
    ∀ w, Until m limit (fun x => x.callers.length ≤ t.callers.length) u w →
      w.globals = t.globals ∧ (w.step m limit).state.globals = t.globals
  /-- If an expression is about to be evaluated, the globals stay as they are until the function
  comes to the end of the expression's code or the run has failed. -/
  exprs : ∀ locals e code rest more, expr locals e = .ok code →
    t.current.todo = .seq (code.map Instr.form ++ rest) :: more →
    ∀ w, Until m limit (fun x => x.callers = t.callers ∧ x.current.todo = .seq rest :: more) t w →
      w.globals = t.globals ∧ (w.step m limit).state.globals = t.globals

/-- In its frame, a machine changes a global variable only by a top-level assignment. -/
theorem steady_of_inFrame (hsilent : IsSilent m) (h : InFrame p t) : Steady p m limit t := by
  refine ⟨?_, ?_, ?_⟩
  · rcases State.globals_step m limit t with hsame | ⟨name, v, hset, hglobals⟩
    · exact .inl hsame
    · obtain ⟨hcallers, hbase⟩ := Stack.of_isSetting h hset
      obtain ⟨info, target, value, hmem, rfl⟩ := hbase.of_isSetting hset
      exact .inr ⟨info, target, value, v, hmem, hcallers, hset, hglobals⟩
  · intro caller u hstep hcallers w hw
    have hstart : u.globals = t.globals := State.globals_of_called hstep hcallers
    rw [← hstart]
    exact (inFrame_step hsilent h hstep).globals_of_call hsilent hw
  · intro locals e code rest more hcode htodo w hw
    exact globals_of_evaluating hsilent ⟨code, expr_isValue e hcode, htodo⟩ hw

end Compiled

end Globals

/-- **Functions do not write globals.** Whatever globals and number of steps earlier runs left
behind, in every state that a run of a compiled module gets to, globals change only at assignments
of the top-level statements. From the start of a call to its end they stay as they are, and so they
do while an expression is evaluated. -/
theorem globals_of_compile {source wat : Text} (h : compile source = .ok wat) :
    ∃ p m, checkSource source = .ok p ∧ Module.parse wat = .ok m ∧
      ∀ machine : Machine, machine.code = m → ∀ room n s t, machine.start? room = some s →
        State.Moves m machine.limit n s t → Globals.Steady p m machine.limit t := by
  obtain ⟨p, m, hp, hwell, hnamed, hparse, hm⟩ := isModule_of_compile h
  refine ⟨p, m, hp, hparse, ?_⟩
  intro machine hcode room n s t hstart hmoves
  have hsilent := Globals.isSilent_of_isModule hm hwell hnamed
  have hframe := Globals.inFrame_of_moves hsilent (Globals.inFrame_start hm hcode hstart) hmoves
  exact Globals.steady_of_inFrame hsilent hframe

/-- A function whose parameter hides a global, and which assigns to it. -/
def hidingSource : Text := "x:int = 3\ndef f(x:int) -> int:\n  x = 1\n  return x\nx = f(x)\n"

theorem globals_of_compile_hidingSource :
    ∃ wat m s, compile hidingSource = .ok wat ∧ Module.parse wat = .ok m ∧
      (Machine.ofModule m 0).start? none = some s ∧
      ∀ n t, State.Moves m 0 n s t → t.callers ≠ [] →
        (t.step m 0).state.globals = t.globals := by
  have hcompiled : (compile hidingSource).toOption.map (fun _ => ()) = some () := by decide +kernel
  obtain ⟨wat, hwat, -⟩ := toOption_map_eq_some.mp hcompiled
  obtain ⟨p, m, -, hm, hruns⟩ := globals_of_compile hwat
  obtain ⟨_, _, -, -, -, hm', hmodule⟩ := isModule_of_compile hwat
  rw [hm] at hm'
  cases hm'
  obtain ⟨s, hs⟩ := Globals.exists_start hmodule (.ofModule m 0) rfl none
  refine ⟨wat, m, s, hwat, hm, hs, ?_⟩
  intro n t hmoves hcallers
  rcases (hruns (Machine.ofModule m 0) rfl none n s t hs hmoves).moves with
    hsame | ⟨_, _, _, _, -, hnil, -⟩
  · exact hsame
  · exact absurd hnil hcallers

end WatCompiler
