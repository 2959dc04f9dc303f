import WatCompiler.Proofs.Representation.Generated

/-!
# What one move keeps

A function at work has values of the declared types in its variables, and operands of which is known
what the code needs that it has left (`OperandsKnown`, `OperandsFit`). One move of the machine in
such a function leads to one of three things. The function goes on and all of this holds again; it
waits for another function, which starts so, and is right again as soon as it is given a value of
that function's type (`Outcome`); or it gives a value of its own type to its caller
(`GivesBackValue`).

What the function has left to do is described by a predicate that can be chosen. For whole functions
it is `TodoTyped`; for a look at a single expression it is the code of that expression, with the
operands that were there before at the bottom of the stack.
-/

namespace WatCompiler.Representation

open Code

/-- Every variable that is declared has a value, and it stands for a value of the variable's
type. -/
def Represented (types : Text → Option Ty) (values : Table Int32) : Prop :=
  ∀ name type, types name = some type →
    ∃ v, values.find? (identifier name) = some v ∧ type.Represents v

section Variables

variable {types : Text → Option Ty} {values : Table Int32} {name : Text} {type : Ty}

/-- What is read from a variable is a value of its type. -/
theorem Represented.get (h : Represented types values) (hname : types name = some type) :
    type.Represents ((values.find? (identifier name)).getD 0) := by
  obtain ⟨v, hfind, hv⟩ := h name type hname
  rw [hfind]
  exact hv

/-- A value of its type is assigned to a variable. -/
theorem Represented.insert (h : Represented types values)
    (hname : types name = some type) {v : Int32}
    (hv : type.Represents v) : Represented types (values.insert (identifier name) v) := by
  intro other otherType hother
  rw [Table.find?_insert]
  by_cases hsame : identifier other = identifier name
  · rw [identifier_injective hsame, hname] at hother
    cases hother
    rw [if_pos hsame]
    exact ⟨v, rfl, hv⟩
  · rw [if_neg hsame]
    exact h other otherType hother

/-- The scratch local is nobody's variable. -/
theorem Represented.insert_scratch (h : Represented types values)
    (hnamed : ∀ name type, types name = some type → Token.isIdentifier name = true) (v : Int32) :
    Represented types (values.insert scratch v) := by
  intro other type hother
  rw [Table.find?_insert_of_ne _ _ (identifier_ne_scratch (hnamed other type hother))]
  exact h other type hother

end Variables

/-! ## Functions at work -/

/-- What stays the same while a function works: what names mean in it, the function, and operands at
the bottom of its stack that it leaves alone. -/
structure Site where
  scope : Scope
  func : Func
  floor : List Int32

/-- A function at work, of whose own operands something is known. -/
structure OperandsKnown (site : Site) (known : Known) (todo : List Control) (a : Activation) :
    Prop where
  func : a.func = site.func
  locals : Represented site.scope.local? a.locals
  operands : ∃ values, a.stack.live = values ++ site.floor ∧ Meets known values
  todo : a.todo = todo

/-- A function whose work fits its operands as soon as more of them are there: those that a function
that it waits for gives to it. -/
def OperandsFit (site : Site) (work : Known → List Control → Prop) (given : Known)
    (a : Activation) : Prop :=
  ∃ known, OperandsKnown site known a.todo a ∧ work (given ++ known) a.todo

/-- The state of the machine while a function works. -/
structure Stage (p : Program Ty) (site : Site) (callers : List Activation) (known : Known)
    (todo : List Control) (s : State) : Prop where
  globals : Represented p.scope.globals.find? s.globals
  callers : s.callers = callers
  current : OperandsKnown site known todo s.current

/-- A call of a function of the program. -/
def Runs (p : Program Ty) (f : FuncDef Ty) (given : Known) (a : Activation) : Prop :=
  ∃ g, IsFunction f g ∧
    OperandsFit ⟨f.scope p.scope, g, []⟩ (TodoTyped p (f.scope p.scope)) given a

/-- The function that was at work above the given callers still is, or it waits for another one that
starts. -/
inductive Outcome (p : Program Ty) (A : Known → Activation → Prop) (callers : List Activation)
    (t : State) : Prop
  | stays (globals : Represented p.scope.globals.find? t.globals) (same : t.callers = callers)
      (current : A [] t.current)
  | calls {f : FuncDef Ty} {caller : Activation} (mem : f ∈ p.functions)
      (globals : Represented p.scope.globals.find? t.globals) (more : t.callers = caller :: callers)
      (waits : A [f.returns.Represents] caller) (starts : Runs p f [] t.current)

/-- The function that was at work has given a value to the first of its callers. -/
structure GivesBackValue (p : Program Ty) (type : Ty) (callers : List Activation) (t : State) :
    Prop where
  globals : Represented p.scope.globals.find? t.globals
  back : ∃ caller v, callers = caller :: t.callers ∧ type.Represents v ∧
    t.current = { caller with stack := caller.stack.push v }

section Moves

variable {p : Program Ty} {m : Module} {limit : Nat} {site : Site} {callers : List Activation}
  {known : Known} {todo : List Control} {s t : State} {P : Int32 → Prop} {v : Int32}

/-- A value that was waited for. -/
theorem OperandsFit.take {work : Known → List Control → Prop} {a : Activation}
    (h : OperandsFit site work [P] a) (hv : P v) :
    OperandsFit site work [] { a with stack := a.stack.push v } := by
  obtain ⟨known, hknown, hwork⟩ := h
  obtain ⟨values, hlive, hmeets⟩ := hknown.operands
  exact ⟨P :: known, ⟨hknown.func, hknown.locals, ⟨v :: values, congrArg (v :: ·) hlive,
    .cons hv hmeets⟩, rfl⟩, hwork⟩

theorem OperandsKnown.holds {work : Known → List Control → Prop} {a : Activation} {given : Known}
    (h : OperandsKnown site known todo a) (hwork : work (given ++ known) todo) :
    OperandsFit site work given a := by
  obtain ⟨hfunc, hlocals, hoperands, rfl⟩ := h
  exact ⟨known, ⟨hfunc, hlocals, hoperands, rfl⟩, hwork⟩

/-- The function goes on with what is left to do. -/
theorem Stage.stays {work : Known → List Control → Prop} (h : Stage p site callers known todo t)
    (hwork : work known todo) : Outcome p (OperandsFit site work) callers t :=
  .stays h.globals h.callers (h.current.holds hwork)

/-! ## Operands -/

/-- One operand more, with what is known of it. -/
theorem Stage.push (h : Stage p site callers known todo s) (hv : P v) :
    Stage p site callers (P :: known) todo (s.push v) := by
  obtain ⟨values, hlive, hmeets⟩ := h.current.operands
  exact ⟨h.globals, h.callers, h.current.func, h.current.locals,
    ⟨v :: values, congrArg (v :: ·) hlive, .cons hv hmeets⟩, h.current.todo⟩

/-- The last operand has what is known of it. -/
theorem Stage.pop {next : Int32 → State → Progress} (h : Stage p site callers (P :: known) todo s)
    (hpop : s.pop next = .running t) :
    ∃ v u, P v ∧ Stage p site callers known todo u ∧ next v u = .running t := by
  obtain ⟨values, hlive, hmeets⟩ := h.current.operands
  obtain ⟨globals, steps, out, ⟨func, locals, ⟨live, spent⟩, todo'⟩, callers'⟩ := s
  -- What is known speaks of an operand above the floor, so there is one to take.
  cases hmeets with
  | @cons _ v _ values hv hmeets =>
    cases hlive
    exact ⟨v,
      ⟨globals, steps, out, ⟨func, locals, ⟨values ++ site.floor, v :: spent⟩, todo'⟩, callers'⟩,
      hv, ⟨h.globals, h.callers, h.current.func, h.current.locals, ⟨values, rfl, hmeets⟩,
        h.current.todo⟩, hpop⟩

/-- Arguments are the operands on top. -/
theorem Meets.split {args : Known} {all : List Int32} (h : Meets (args.reverse ++ known) all) :
    ∃ values rest, all = values.reverse ++ rest ∧ Meets args values ∧ Meets known rest := by
  have htake := List.forall₂_take args.reverse.length h
  have hdrop := List.forall₂_drop args.reverse.length h
  rw [List.take_left] at htake
  rw [List.drop_left] at hdrop
  refine ⟨(all.take args.reverse.length).reverse, all.drop args.reverse.length, ?_, ?_, hdrop⟩
  · rw [List.reverse_reverse, List.take_append_drop]
  · have hreverse := List.rel_reverse htake
    rw [List.reverse_reverse] at hreverse
    exact hreverse

/-- The arguments of a call, which come out in the order in which they were put on the stack. -/
theorem Stage.popMany {args : Known} (h : Stage p site callers (args.reverse ++ known) todo s) :
    ∃ values stack, s.current.stack.popMany? [] values.length = some (values, stack) ∧
      Meets args values ∧ OperandsKnown site known todo { s.current with stack := stack } := by
  obtain ⟨all, hlive, hmeets⟩ := h.current.operands
  obtain ⟨values, rest, rfl, hvalues, hrest⟩ := hmeets.split
  rw [List.append_assoc] at hlive
  obtain ⟨stack, hpop, hstack⟩ := OperandStack.popMany?_reverse hlive
  exact ⟨values, stack, hpop, hvalues, h.current.func, h.current.locals, ⟨rest, hstack, hrest⟩,
    h.current.todo⟩

/-! ## Starting -/

theorem find?_of_forall₂ {types : Table Ty} {values : Table Int32}
    (h : List.Forall₂ (fun a b => a.1 = b.1 ∧ a.2.Represents b.2) types values) {name : Text}
    {type : Ty} (hname : types.find? name = some type) :
    ∃ v, values.find? name = some v ∧ type.Represents v := by
  have hcases := find?_cases_of_forall₂ h name
  rw [hname] at hcases
  exact hcases

/-- Global variables start with values of their types. -/
theorem represented_globals (hm : IsModule p m) (ht : p.WellTyped) :
    Represented p.scope.globals.find? m.globals := by
  have hglobals : m.globals = (p.globals.map fun v => (v.name, v.literal.word)).map
      fun entry => (identifier entry.1, entry.2) := by
    rw [hm.globals, List.map_map]
    rfl
  intro name type hname
  rw [hglobals, find?_identifiers]
  exact find?_of_forall₂ (forall₂_vars fun v hv => Ty.represents_word (ht.literals v hv)) hname

/-- The variables of a call before they have their initial values: zero stands for a value of every
type. -/
theorem represented_start {f : FuncDef Ty} {g : Func} (hg : IsFunction f g)
    (hs : Inside p (f.scope p.scope) (ownNames f)) {values : List Int32}
    (hvalues : List.Forall₂ Ty.Represents f.signature.params values) :
    Represented (f.scope p.scope).local?
      (g.params.zip values ++ g.locals.map fun name => (name, 0)) := by
  intro name type hname
  rw [find?_zeros hg values (identifier_ne_scratch (hs.local_named hname))]
  exact find?_of_forall₂ (List.rel_append (forall₂_params hvalues)
    (forall₂_vars fun v _ => v.type.represents_zero)) hname

/-- A function starts with arguments of its types and zeros. -/
theorem runs_start (hm : IsModule p m) (ht : p.WellTyped) (hp : p.Named) {f : FuncDef Ty}
    (hf : f ∈ p.functions) {g : Func} (hg : IsFunction f g) {values : List Int32}
    (hvalues : List.Forall₂ Ty.Represents f.signature.params values) :
    Runs p f [] ⟨g, g.params.zip values ++ g.locals.map fun name => (name, 0), .empty,
      [.seq g.body]⟩ := by
  have hlocals := represented_start hg (inside_function hm hp hf hg) hvalues
  exact ⟨g, hg, [], ⟨rfl, hlocals, ⟨[], rfl, .nil⟩, rfl⟩, typed_function hm ht hp hf hg, rfl⟩

/-! ## Plain instructions -/

/-- What a function of the host gives is of its declared type. -/
theorem host_call_represents {host : Host} {signature : Signature}
    (hsignature : builtins.find? host.name = some signature) {values : List Int32}
    {out out' : Output}
    (h : host.call values out = .ok (v, out')) : signature.returns.Represents v := by
  cases host with
  | print =>
    cases hsignature
    rcases values with _ | ⟨value, _ | ⟨mode, rest⟩⟩
    · cases h
    · cases h
    · unfold Host.call at h
      dsimp only at h
      split at h
      · cases h
      · cases h
        exact rfl
  | _ =>
    cases hsignature
    trivial

/-- A move executes the first instruction that is left. -/
theorem Stage.execute {d : Datum} {code : List Datum} {more : List Control}
    (h : Stage p site callers known (.seq (d :: code) :: more) s)
    (hstep : s.step m limit = .running t) :
    ∃ u, Stage p site callers known (.seq code :: more) u ∧ u.execute m d = .running t := by
  unfold State.step at hstep
  rw [h.current.todo] at hstep
  dsimp only at hstep
  split at hstep
  · cases hstep
  · refine ⟨{ s.goOn (.seq code :: more) s.current.stack with steps := s.steps + 1 }, ?_, hstep⟩
    exact ⟨h.globals, h.callers, h.current.func, h.current.locals, h.current.operands, rfl⟩

/-- A function of the host gives a value of its type. -/
theorem Stage.callHost (hm : IsModule p m) {host : Host} {signature : Signature}
    (hsignature : builtins.find? host.name = some signature) {args : Known}
    (hlen : args.length = host.arity) (h : Stage p site callers (args.reverse ++ known) todo s)
    (hcall : s.call m (identifier host.name) = .running t) :
    Stage p site callers (signature.returns.Represents :: known) todo t := by
  obtain ⟨values, stack, hpop, hvalues, hknown⟩ := h.popMany
  rw [← hvalues.length_eq, hlen] at hpop
  rw [call_host hm s hpop] at hcall
  split at hcall
  · cases hcall
  · next value out hvalue =>
    cases hcall
    have hnext : Stage p site callers known todo { s.goOn s.current.todo stack with out := out } :=
      ⟨h.globals, h.callers, hknown⟩
    exact hnext.push (host_call_represents hsignature hvalue)

/-- Arguments of the types of the parameters. -/
theorem represents_of_meets {args : Known} {params : List Ty}
    (hparams : List.Forall₂ (fun (P : Int32 → Prop) (type : Ty) => ∀ v, P v → type.Represents v)
      args params) {values : List Int32} (hvalues : Meets args values) :
    List.Forall₂ Ty.Represents params values := by
  induction hparams generalizing values with
  | nil =>
    cases hvalues
    exact .nil
  | cons hparam _ ih =>
    cases hvalues with
    | cons hv hrest => exact .cons (hparam _ hv) (ih hrest)

/-- A call starts a function of the program; its caller waits for a value of its type. -/
theorem Stage.callFunction (hm : IsModule p m) (ht : p.WellTyped) (hp : p.Named) {f : FuncDef Ty}
    (hf : f ∈ p.functions) {args : Known}
    (hparams : List.Forall₂ (fun (P : Int32 → Prop) (type : Ty) => ∀ v, P v → type.Represents v)
      args f.signature.params) {work : Known → List Control → Prop}
    (hwork : work (f.returns.Represents :: known) todo)
    (h : Stage p site callers (args.reverse ++ known) todo s)
    (hcall : s.call m (identifier f.name) = .running t) :
    Outcome p (OperandsFit site work) callers t := by
  obtain ⟨values, stack, hpop, hvalues, hknown⟩ := h.popMany
  have hlen : values.length = f.params.length := by
    rw [← hvalues.length_eq, hparams.length_eq, FuncDef.signature, List.length_map]
  obtain ⟨g, hg, hstart⟩ := call_function hm ht hp hf s hlen hpop
  rw [hstart] at hcall
  cases hcall
  refine .calls hf h.globals (by rw [h.callers]) (hknown.holds hwork) ?_
  exact runs_start hm ht hp hf hg (represents_of_meets hparams hvalues)

/-- **Plain instructions keep representations.** -/
theorem Stage.plain (hm : IsModule p m) (ht : p.WellTyped) (hp : p.Named) {locals : List Text}
    (hs : Inside p site.scope locals) {d : Datum} {code : List Datum} {more : List Control}
    {known' : Known} (hd : Plain p site.scope known d known') {work : Known → List Control → Prop}
    (hwork : work known' (.seq code :: more))
    (h : Stage p site callers known (.seq (d :: code) :: more) s)
    (hstep : s.step m limit = .running t) : Outcome p (OperandsFit site work) callers t := by
  obtain ⟨u, hu, hexec⟩ := h.execute hstep
  unfold State.execute at hexec
  cases hd with
  | const instr value =>
    rw [instr] at hexec
    cases hexec
    exact (hu.push value).stays hwork
  | localGet instr var =>
    rw [instr] at hexec
    cases hexec
    exact (hu.push (hu.current.locals.get var)).stays hwork
  | globalGet instr var =>
    rw [instr] at hexec
    cases hexec
    exact (hu.push (hu.globals.get var)).stays hwork
  | localSet instr var value =>
    rw [instr] at hexec
    obtain ⟨v, x, hv, hx, hnext⟩ := hu.pop hexec
    cases hnext
    have hlocals := hx.current.locals.insert var (value v hv)
    exact Stage.stays ⟨hx.globals, hx.callers, hx.current.func, hlocals, hx.current.operands,
      hx.current.todo⟩ hwork
  | globalSet instr var value =>
    rw [instr] at hexec
    obtain ⟨v, x, hv, hx, hnext⟩ := hu.pop hexec
    cases hnext
    exact Stage.stays ⟨hx.globals.insert var (value v hv), hx.callers, hx.current⟩ hwork
  | discard instr =>
    rw [instr] at hexec
    obtain ⟨v, x, -, hx, hnext⟩ := hu.pop hexec
    cases hnext
    have hlocals := hx.current.locals.insert_scratch (fun name type => hs.local_named) v
    exact Stage.stays ⟨hx.globals, hx.callers, hx.current.func, hlocals, hx.current.operands,
      hx.current.todo⟩ hwork
  | arith instr value negates =>
    rw [instr] at hexec
    -- The right operand is on top. Where the operation traps, the run does not go on.
    obtain ⟨rhs, x, hrhs, hx, hnext⟩ := hu.pop hexec
    obtain ⟨lhs, y, hlhs, hy, hnext⟩ := hx.pop hnext
    split at hnext
    · cases hnext
    · next v hv =>
      cases hnext
      exact (hy.push (value lhs rhs v hlhs hrhs hv)).stays hwork
  | host instr count builtin =>
    rw [instr] at hexec
    exact (hu.callHost hm builtin count hexec).stays hwork
  | call instr mem params =>
    rw [instr] at hexec
    exact hu.callFunction hm ht hp mem params hwork hexec

/-! ## Branches, blocks and returns -/

/-- A function that has no operands. -/
theorem OperandsKnown.live_eq_nil {a : Activation} (hfloor : site.floor = [])
    (h : OperandsKnown site [] todo a) :
    a.stack.live = [] := by
  obtain ⟨values, hlive, hmeets⟩ := h.operands
  cases hmeets
  rw [hlive, hfloor]
  rfl

theorem OperandsKnown.height_eq_zero {a : Activation} (hfloor : site.floor = [])
    (h : OperandsKnown site [] todo a) :
    a.stack.height = 0 := by
  rw [OperandStack.height, h.live_eq_nil hfloor]
  rfl

theorem Stage.goOn {todo' : List Control} {stack : OperandStack}
    (h : Stage p site callers known todo s)
    (hfloor : site.floor = []) (hstack : stack.live = []) :
    Stage p site callers [] todo' (s.goOn todo' stack) :=
  ⟨h.globals, h.callers, h.current.func, h.current.locals,
    ⟨[], by rw [hfloor]; exact hstack, .nil⟩, rfl⟩

/-- A branch goes on behind or at the label, with an empty stack. -/
theorem Stage.branch (hfloor : site.floor = []) {label : Text} {code : List Datum}
    {more : List Control} (hmem : label ∈ labelsOf more) (hmore : TodoTyped p site.scope [] more)
    (h : Stage p site callers known (.seq code :: more) s) (hbranch : s.branch label = .running t) :
    Outcome p (OperandsFit site (TodoTyped p site.scope)) callers t := by
  have hne : label ≠ [] := fun he => nil_not_mem_labelsOf hmore (he ▸ hmem)
  obtain ⟨next, hnext, htyped⟩ := branchTo_typed s.current.stack hmem hmore
  rw [State.branch, if_neg hne, h.current.todo, branchTo, hnext] at hbranch
  cases hbranch
  exact (h.goOn hfloor (live_resize_zero _)).stays htyped

/-- A return gives a value of the function's type to the caller. -/
theorem Stage.ret (hresult : site.func.hasResult = true) {code : List Datum} {more : List Control}
    (hmore : [] ∉ labelsOf more) (hvalue : ∀ v, P v → site.scope.returns.Represents v)
    (h : Stage p site callers (P :: known) (.seq code :: more) s) (hret : s.ret = .running t) :
    GivesBackValue p site.scope.returns callers t := by
  -- All blocks and loops have names, so the return does not stop at any of them.
  rw [State.ret, h.current.todo, returnFrom, Validation.returnFrom_eq hmore] at hret
  change (s.goOn [] s.current.stack).leave = _ at hret
  have hend : Stage p site callers (P :: known) [] (s.goOn [] s.current.stack) :=
    ⟨h.globals, h.callers, h.current.func, h.current.locals, h.current.operands, rfl⟩
  rw [State.leave, hend.current.func, if_pos hresult] at hret
  obtain ⟨v, u, hv, hu, hback⟩ := hend.pop hret
  unfold State.giveBack at hback
  rw [hu.callers, hu.current.func] at hback
  split at hback
  · cases hback
  · next caller rest =>
    rw [if_pos hresult] at hback
    cases hback
    exact ⟨hu.globals, caller, v, rfl, hvalue v hv, rfl⟩

/-- An instruction of typed code keeps representations. -/
theorem Stage.instr (hm : IsModule p m) (ht : p.WellTyped) (hp : p.Named) {locals : List Text}
    (hs : Inside p site.scope locals) (hfloor : site.floor = [])
    (hresult : site.scope.inFunction = true → site.func.hasResult = true) {d : Datum}
    {code : List Datum} {more : List Control}
    (hcode : Typed p site.scope (labelsOf more) known (d :: code))
    (hmore : TodoTyped p site.scope [] more)
    (h : Stage p site callers known (.seq (d :: code) :: more) s)
    (hstep : s.step m limit = .running t) :
    Outcome p (OperandsFit site (TodoTyped p site.scope)) callers t ∨
      site.scope.inFunction = true ∧ GivesBackValue p site.scope.returns callers t := by
  cases hcode with
  | plain first rest => exact .inl (h.plain hm ht hp hs first ⟨rest, hmore⟩ hstep)
  | ret instr inFunction value =>
    obtain ⟨u, hu, hexec⟩ := h.execute hstep
    rw [State.execute, instr] at hexec
    exact .inr ⟨inFunction, hu.ret (hresult inFunction) (nil_not_mem_labelsOf hmore) value hexec⟩
  | br instr mem =>
    obtain ⟨u, hu, hexec⟩ := h.execute hstep
    rw [State.execute, instr] at hexec
    exact .inl (hu.branch hfloor mem hmore hexec)
  | brIf instr mem rest =>
    obtain ⟨u, hu, hexec⟩ := h.execute hstep
    rw [State.execute, instr] at hexec
    obtain ⟨v, x, -, hx, hnext⟩ := hu.pop hexec
    split at hnext
    · cases hnext
      exact .inl (hx.stays ⟨rest, hmore⟩)
    · exact .inl (hx.branch hfloor mem hmore hnext)
  -- Blocks and loops start without operands, so that a branch out of them leaves none either.
  | block instr named inside rest =>
    obtain ⟨u, hu, hexec⟩ := h.execute hstep
    rw [State.execute, instr] at hexec
    cases hexec
    refine .inl ((hu.goOn hfloor (hu.current.live_eq_nil hfloor)).stays ?_)
    rw [hu.current.height_eq_zero hfloor, hu.current.todo]
    exact ⟨inside, rfl, named, rfl, rest, hmore⟩
  | loop instr named inside rest =>
    obtain ⟨u, hu, hexec⟩ := h.execute hstep
    rw [State.execute, instr] at hexec
    cases hexec
    refine .inl ((hu.goOn hfloor (hu.current.live_eq_nil hfloor)).stays ?_)
    rw [hu.current.height_eq_zero hfloor, hu.current.todo]
    exact ⟨inside, rfl, named, rfl, inside, rest, hmore⟩
  | cond instr inside rest =>
    obtain ⟨u, hu, hexec⟩ := h.execute hstep
    rw [State.execute, instr] at hexec
    obtain ⟨v, x, -, hx, hnext⟩ := hu.pop hexec
    split at hnext
    · cases hnext
      exact .inl (hx.stays ⟨rest, hmore⟩)
    · next arm harm =>
      have hbody := inside arm (List.mem_of_find?_eq_some harm)
      split at hnext
      · cases hnext
      · next head body hitems =>
        rw [hitems] at hbody
        cases hnext
        refine .inl ((hx.goOn hfloor (hx.current.live_eq_nil hfloor)).stays ?_)
        rw [hx.current.todo]
        exact ⟨hbody, rest, hmore⟩

/-- **One move keeps representations** in a function that is not at its end. -/
theorem Stage.move (hm : IsModule p m) (ht : p.WellTyped) (hp : p.Named) {locals : List Text}
    (hs : Inside p site.scope locals) (hfloor : site.floor = [])
    (hresult : site.scope.inFunction = true → site.func.hasResult = true) (hne : todo ≠ [])
    (htodo : TodoTyped p site.scope known todo) (h : Stage p site callers known todo s)
    (hstep : s.step m limit = .running t) :
    Outcome p (OperandsFit site (TodoTyped p site.scope)) callers t ∨
      site.scope.inFunction = true ∧ GivesBackValue p site.scope.returns callers t := by
  cases todo with
  | nil => exact absurd rfl hne
  | cons c rest =>
    -- The end of a body, a block or a loop is only left behind.
    have hleft : ∀ {stack : OperandStack}, known = [] → stack = s.current.stack →
        s.goOn rest stack = t → TodoTyped p site.scope [] rest →
        Outcome p (OperandsFit site (TodoTyped p site.scope)) callers t := by
      rintro stack rfl rfl rfl hrest
      exact (h.goOn hfloor (h.current.live_eq_nil hfloor)).stays hrest
    have hrun := hstep
    rw [State.step, h.current.todo] at hrun
    cases c with
    | seq code =>
      cases code with
      | nil =>
        cases hrun
        obtain ⟨hcode, hrest⟩ := htodo
        cases hcode
        exact .inl (hleft rfl rfl rfl hrest)
      | cons d code => exact h.instr hm ht hp hs hfloor hresult htodo.1 htodo.2 hstep
    | block name height =>
      obtain ⟨hknown, hname, -, hrest⟩ := htodo
      cases hrun
      exact .inl (hleft hknown (if_neg hname) rfl hrest)
    | loop name height body =>
      obtain ⟨hknown, hname, -, -, hrest⟩ := htodo
      dsimp only at hrun
      rw [if_neg hname] at hrun
      cases hrun
      exact .inl (hleft hknown rfl rfl hrest)

end Moves

end WatCompiler.Representation
