import WatCompiler.Proofs.Machine.OperandStack
import WatCompiler.Proofs.Simulation.Follows
import WatCompiler.Proofs.Wat.Compiled

/-!
# States in the middle of a function

`Stands` relates the machine to the program while the code of one function is executed: the
variables have the same values, and these are of the variables' types. Each instruction of generated
code has a lemma that says where one move leads.
-/

namespace WatCompiler

open Layout (data)

/-- A value that something of a given type can have: truth values are zero or one. -/
def Ty.CanHold (type : Ty) (value : Int32) : Prop := type = .bool → value = 0 ∨ value = 1

/-- Every type has the word of a variable that is not set yet. -/
theorem Ty.canHold_zero (type : Ty) : type.CanHold 0 := fun _ => .inl rfl

/-- Truth values fit everywhere. -/
theorem Ty.canHold_toInt32 (type : Ty) (b : Bool) : type.CanHold b.toInt32 := fun _ => by
  cases b
  · exact .inl rfl
  · exact .inr rfl

/-- A literal fits its type. -/
theorem Ty.canHold_word {value : Literal} {type : Ty} (h : value.type = type) :
    type.CanHold value.word := by
  rintro rfl
  cases value with
  | true => exact .inr rfl
  | false => exact .inl rfl
  | none => cases h
  | number => cases h
  | other => cases h

/-- The global variables of the program have values of their types. -/
def World.Typed (p : Program Ty) (w : World) : Prop :=
  ∀ {name type}, p.scope.globals.find? name = some type →
    ∃ v, w.globals.find? name = some v ∧ type.CanHold v

namespace Code

/-- What stays the same while the code of a function is executed. -/
structure Frame where
  program : Program Ty
  code : Module
  scope : Scope
  /-- The names of the function's own variables. -/
  locals : List Text
  func : Func
  callers : List Activation

/-- The module is that of the program, and the scope is that of the function. Only a function that
was called can return. -/
structure Frame.Fits (fr : Frame) : Prop where
  isModule : IsModule fr.program fr.code
  globals : fr.scope.globals = fr.program.scope.globals
  functions : fr.scope.functions = fr.program.scope.functions
  locals : ∀ name, name ∈ fr.locals ↔ (fr.scope.local? name).isSome = true
  named : fr.scope.Named
  returns : fr.scope.inFunction = true →
    fr.func.hasResult = true ∧ ∃ caller callers, fr.callers = caller :: callers

/-- The variables of a call are those of its scope, with values of their types. -/
structure OwnTyped (scope : Scope) (own : Table Int32) : Prop where
  declared : ∀ {name type}, scope.local? name = some type →
    ∃ v, own.find? name = some v ∧ type.CanHold v
  only : ∀ {name}, scope.local? name = none → own.find? name = none

/-- The machine stands before `todo` in a call, with operands `live`. The scratch local may have any
value. -/
structure Stands (fr : Frame) (own : Table Int32) (w : World) (todo : List Control)
    (live : List Int32) (s : State) : Prop where
  shows : Shows w s
  globals : w.Typed fr.program
  callers : s.callers = fr.callers
  func : s.current.func = fr.func
  todo : s.current.todo = todo
  live : s.current.stack.live = live
  locals : ∀ {name}, identifier name ≠ scratch →
    s.current.locals.find? (identifier name) = own.find? name
  own : OwnTyped fr.scope own

variable {fr : Frame} {own : Table Int32} {w : World} {code : List Datum} {more : List Control}
  {live : List Int32} {s : State} {n : Nat}

/-! ## Single moves -/

/-- The next instruction is executed with the rest of the code to do. -/
theorem Stands.step {d : Datum} (h : Stands fr own w (.seq (d :: code) :: more) live s) :
    ∃ t, Stands fr own w (.seq code :: more) live t ∧
      s.step fr.code 0 = t.execute fr.code d := by
  refine ⟨{ s.goOn (.seq code :: more) s.current.stack with steps := s.steps + 1 },
    ⟨⟨h.shows.globals, h.shows.out⟩, h.globals, h.callers, h.func, rfl, h.live, h.locals, h.own⟩,
      ?_⟩
  rw [State.step, h.todo]
  exact if_neg fun hlimit => absurd hlimit.1 (Nat.lt_irrefl 0)

/-- A value on the stack changes nothing else. -/
theorem Stands.push {todo : List Control} (h : Stands fr own w todo live s) (v : Int32) :
    Stands fr own w todo (v :: live) (s.push v) :=
  ⟨⟨h.shows.globals, h.shows.out⟩, h.globals, h.callers, h.func, h.todo,
    congrArg (v :: ·) h.live, h.locals, h.own⟩

/-- Neither does going on with other work. -/
theorem Stands.goOn {todo : List Control} (h : Stands fr own w todo live s) (todo' : List Control)
    {stack : OperandStack} {live' : List Int32} (hstack : stack.live = live') :
    Stands fr own w todo' live' (s.goOn todo' stack) :=
  ⟨⟨h.shows.globals, h.shows.out⟩, h.globals, h.callers, h.func, rfl, hstack, h.locals, h.own⟩

/-- The topmost value can be taken. -/
theorem Stands.pop {todo : List Control} {v : Int32} (h : Stands fr own w todo (v :: live) s) :
    ∃ t, Stands fr own w todo live t ∧ ∀ next, s.pop next = next v t := by
  have hlive := h.live
  obtain ⟨globals, steps, out, ⟨func, locals, ⟨values, spent⟩, todo'⟩, callers⟩ := s
  cases hlive
  exact ⟨⟨globals, steps, out, ⟨func, locals, ⟨live, v :: spent⟩, todo'⟩, callers⟩,
    ⟨⟨h.shows.globals, h.shows.out⟩, h.globals, h.callers, h.func, h.todo, rfl, h.locals, h.own⟩,
    fun _ => rfl⟩

/-- A constant is pushed. -/
theorem Stands.const {v : Int32}
    (h : Stands fr own w (.seq ((Instr.const v).form :: code) :: more) live s) :
    ∃ t, s.step fr.code 0 = .running t ∧ Stands fr own w (.seq code :: more) (v :: live) t := by
  obtain ⟨t, ht, hstep⟩ := h.step
  refine ⟨t.push v, ?_, ht.push v⟩
  rw [hstep, State.execute, Instr.instr_form (show (Instr.const v).IsCode from trivial)]

/-- The scratch local takes any value. -/
theorem Stands.discard {v : Int32}
    (h : Stands fr own w (.seq ((Instr.localSet scratch).form :: code) :: more) (v :: live) s) :
    ∃ t, s.step fr.code 0 = .running t ∧ Stands fr own w (.seq code :: more) live t := by
  obtain ⟨t, ht, hstep⟩ := h.step
  obtain ⟨u, hu, hpop⟩ := ht.pop
  refine ⟨{ u with current := { u.current with locals := u.current.locals.insert scratch v } }, ?_,
    ⟨⟨hu.shows.globals, hu.shows.out⟩, hu.globals, hu.callers, hu.func, hu.todo, hu.live, ?_,
      hu.own⟩⟩
  · rw [hstep, State.execute, Instr.instr_form (show (Instr.localSet scratch).IsCode from trivial)]
    exact hpop _
  · intro name hname
    exact (Table.find?_insert_of_ne _ v hname).trans (hu.locals hname)

/-- Two operands are replaced by the result, or there is a failure. -/
theorem Stands.arith {op : ArithOp} {lhs rhs : Int32}
    (h : Stands fr own w (.seq ((Instr.arith op).form :: code) :: more) (rhs :: lhs :: live) s) :
    ∃ t, Stands fr own w (.seq code :: more) live t ∧
      s.step fr.code 0 = match op.apply lhs rhs with
        | .error cause => t.fail (.trap cause)
        | .ok value => .running (t.push value) := by
  obtain ⟨t, ht, hstep⟩ := h.step
  obtain ⟨u, hu, hpop⟩ := ht.pop
  obtain ⟨v, hv, hpop'⟩ := hu.pop
  refine ⟨v, hv, ?_⟩
  rw [hstep, State.execute, Instr.instr_form (show (Instr.arith op).IsCode from trivial)]
  exact (hpop _).trans (hpop' _)

theorem Stands.arith_ok {op : ArithOp} {lhs rhs v : Int32} (hop : op.apply lhs rhs = .ok v)
    (h : Stands fr own w (.seq ((Instr.arith op).form :: code) :: more) (rhs :: lhs :: live) s) :
    ∃ t, s.step fr.code 0 = .running t ∧ Stands fr own w (.seq code :: more) (v :: live) t := by
  obtain ⟨t, ht, hstep⟩ := h.arith
  rw [hop] at hstep
  exact ⟨t.push v, hstep, ht.push v⟩

/-- The end of a body inside other code. -/
theorem Stands.next (h : Stands fr own w (.seq [] :: more) live s) :
    ∃ t, s.step fr.code 0 = .running t ∧ Stands fr own w more live t := by
  refine ⟨s.goOn more s.current.stack, ?_, h.goOn more h.live⟩
  rw [State.step, h.todo]

/-! ## Variables -/

/-- No variable of a program is the scratch variable. -/
theorem identifier_ne_scratch {name : Text} (h : Token.isIdentifier name = true) :
    identifier name ≠ scratch := by
  intro he
  have hname : name = Text.ofString "$scratch" := (List.cons.inj he).2
  rw [hname] at h
  cases h

/-- Variables are found under the identifiers of their names. -/
theorem find?_identifiers (t : Table Int32) (name : Text) :
    Table.find? (t.map fun entry => (identifier entry.1, entry.2)) (identifier name) =
      t.find? name := by
  induction t with
  | nil => rfl
  | cons entry rest ih =>
    have hkey : identifier entry.1 = identifier name ↔ entry.1 = name :=
      ⟨identifier_injective, congrArg identifier⟩
    rw [List.map_cons, Table.find?, Table.find?, ih]
    simp only [hkey]

/-- And they are set under them. -/
theorem insert_identifiers (t : Table Int32) (name : Text) (v : Int32) :
    Table.insert (t.map fun entry => (identifier entry.1, entry.2)) (identifier name) v =
      (t.insert name v).map fun entry => (identifier entry.1, entry.2) := by
  induction t with
  | nil => rfl
  | cons entry rest ih =>
    have hkey : identifier entry.1 = identifier name ↔ entry.1 = name :=
      ⟨identifier_injective, congrArg identifier⟩
    rw [List.map_cons, Table.insert, Table.insert, ih]
    simp only [hkey]
    split <;> rfl

/-- A variable of the scope has the same value in the program and in the machine. -/
theorem Stands.get (hfr : fr.Fits) {name : Text} {type : Ty}
    (hname : fr.scope.lookup? name = some type)
    (h : Stands fr own w (.seq ((get fr.locals name).form :: code) :: more) live s) :
    ∃ v t, (own.find? name <|> w.globals.find? name) = some v ∧ type.CanHold v ∧
      s.step fr.code 0 = .running t ∧ Stands fr own w (.seq code :: more) (v :: live) t := by
  obtain ⟨t, ht, hstep⟩ := h.step
  rw [Scope.lookup?] at hname
  cases hlocal : fr.scope.local? name with
  | some found =>
    rw [hlocal] at hname
    cases hname
    obtain ⟨v, hv, hcan⟩ := ht.own.declared hlocal
    have hmem : name ∈ fr.locals := (hfr.locals name).mpr (by rw [hlocal]; rfl)
    have hscratch := identifier_ne_scratch (hfr.named.vars
      (show fr.scope.lookup? name = some type by rw [Scope.lookup?, hlocal]; rfl))
    refine ⟨v, t.push v, by rw [hv]; rfl, hcan, ?_, ht.push v⟩
    rw [hstep, Code.get, if_pos hmem, State.execute,
      Instr.instr_form (show (Instr.localGet (identifier name)).IsCode from trivial)]
    show Progress.running (t.push ((t.current.locals.find? (identifier name)).getD 0)) = _
    rw [ht.locals hscratch, hv]
    rfl
  | none =>
    rw [hlocal] at hname
    have hglobal : fr.program.scope.globals.find? name = some type := hfr.globals ▸ hname
    obtain ⟨v, hv, hcan⟩ := ht.globals hglobal
    have hmem : name ∉ fr.locals := fun hmem => by
      have hsome := (hfr.locals name).mp hmem
      rw [hlocal] at hsome
      cases hsome
    refine ⟨v, t.push v, by rw [ht.own.only hlocal, hv]; rfl, hcan, ?_, ht.push v⟩
    rw [hstep, Code.get, if_neg hmem, State.execute,
      Instr.instr_form (show (Instr.globalGet (identifier name)).IsCode from trivial)]
    show Progress.running (t.push ((t.globals.find? (identifier name)).getD 0)) = _
    rw [ht.shows.globals, find?_identifiers, hv]
    rfl

/-- A value that fits the type of a variable can be stored in it. -/
theorem OwnTyped.insert {scope : Scope} (h : OwnTyped scope own) {name : Text} {type : Ty}
    (hname : scope.local? name = some type) {v : Int32} (hv : type.CanHold v) :
    OwnTyped scope (own.insert name v) := by
  constructor
  · intro other type' hother
    rw [Table.find?_insert]
    split
    · next he =>
      rw [he, hname] at hother
      cases hother
      exact ⟨v, rfl, hv⟩
    · exact h.declared hother
  · intro other hother
    rw [Table.find?_insert, if_neg fun he => by rw [he, hname] at hother; cases hother]
    exact h.only hother

/-- The same for global variables. -/
theorem typed_insert {p : Program Ty} (h : w.Typed p) {name : Text} {type : Ty}
    (hname : p.scope.globals.find? name = some type) {v : Int32} (hv : type.CanHold v) :
    World.Typed p { w with globals := w.globals.insert name v } := by
  intro other type' hother
  show ∃ v', (w.globals.insert name v).find? other = some v' ∧ _
  rw [Table.find?_insert]
  split
  · next he =>
    rw [he, hname] at hother
    cases hother
    exact ⟨v, rfl, hv⟩
  · exact h hother

/-- Assignment to a variable of the call. -/
theorem Stands.localSet {name : Text} {type : Ty} (hname : fr.scope.local? name = some type)
    {v : Int32} (hv : type.CanHold v)
    (h : Stands fr own w (.seq ((Instr.localSet (identifier name)).form :: code) :: more)
      (v :: live) s) :
    ∃ t, s.step fr.code 0 = .running t ∧
      Stands fr (own.insert name v) w (.seq code :: more) live t := by
  obtain ⟨t, ht, hstep⟩ := h.step
  obtain ⟨u, hu, hpop⟩ := ht.pop
  refine ⟨{ u with
      current := { u.current with locals := u.current.locals.insert (identifier name) v } }, ?_,
    ⟨⟨hu.shows.globals, hu.shows.out⟩, hu.globals, hu.callers, hu.func, hu.todo, hu.live, ?_,
      hu.own.insert hname hv⟩⟩
  · rw [hstep, State.execute,
      Instr.instr_form (show (Instr.localSet (identifier name)).IsCode from trivial)]
    exact hpop _
  · intro other hother
    show (u.current.locals.insert (identifier name) v).find? (identifier other) = _
    rw [Table.find?_insert, Table.find?_insert, hu.locals hother]
    by_cases he : other = name
    · rw [if_pos he, if_pos (congrArg identifier he)]
    · rw [if_neg he, if_neg fun hid => he (identifier_injective hid)]

/-- Assignment to a global variable. -/
theorem Stands.globalSet {name : Text} {type : Ty}
    (hname : fr.program.scope.globals.find? name = some type) {v : Int32} (hv : type.CanHold v)
    (h : Stands fr own w (.seq ((Instr.globalSet (identifier name)).form :: code) :: more)
      (v :: live) s) :
    ∃ t, s.step fr.code 0 = .running t ∧
      Stands fr own { w with globals := w.globals.insert name v } (.seq code :: more) live t := by
  obtain ⟨t, ht, hstep⟩ := h.step
  obtain ⟨u, hu, hpop⟩ := ht.pop
  refine ⟨{ u with globals := u.globals.insert (identifier name) v }, ?_,
    ⟨⟨?_, hu.shows.out⟩, typed_insert hu.globals hname hv, hu.callers, hu.func, hu.todo, hu.live,
      hu.locals, hu.own⟩⟩
  · rw [hstep, State.execute,
      Instr.instr_form (show (Instr.globalSet (identifier name)).IsCode from trivial)]
    exact hpop _
  · show u.globals.insert (identifier name) v = _
    rw [hu.shows.globals]
    exact insert_identifiers w.globals name v

/-- Storing a value follows an assignment, to a local or a global variable. -/
theorem follows_set (hfr : fr.Fits) {name : Text} {type : Ty}
    (hname : fr.scope.assignable? name = some type) {v : Int32} (hv : type.CanHold v)
    (h : Stands fr own w (.seq ((set fr.locals name).form :: code) :: more) (v :: live) s) :
    Follows fr.code n (Eval.set own name v) w s fun own' w' t =>
      Stands fr own' w' (.seq code :: more) live t := by
  rw [Scope.assignable?] at hname
  cases hlocal : fr.scope.local? name with
  | some found =>
    rw [hlocal] at hname
    cases hname
    obtain ⟨old, hold, -⟩ := h.own.declared hlocal
    rw [Code.set, if_pos ((hfr.locals name).mpr (by rw [hlocal]; rfl))] at h
    obtain ⟨t, hstep, ht⟩ := h.localSet hlocal hv
    refine Follows.of_step_done ?_ hstep ht
    rw [Eval.set, Table.has, hold]
    rfl
  | none =>
    rw [hlocal] at hname
    have hglobal : fr.program.scope.globals.find? name = some type := by
      rw [← hfr.globals]
      cases hin : fr.scope.inFunction with
      | true => rw [hin] at hname; cases hname
      | false => rw [hin] at hname; exact hname
    have hmem : name ∉ fr.locals := fun hmem => by
      have hsome := (hfr.locals name).mp hmem
      rw [hlocal] at hsome
      cases hsome
    rw [Code.set, if_neg hmem] at h
    obtain ⟨t, hstep, ht⟩ := h.globalSet hglobal hv
    refine Follows.of_step_done ?_ hstep ht
    rw [Eval.set, Table.has, h.own.only hlocal]
    rfl

/-! ## Blocks, loops and conditionals -/

/-- The height of the stack is the number of its values. -/
theorem Stands.height_eq {todo : List Control} (h : Stands fr own w todo live s) :
    s.current.stack.height = live.length := by
  rw [OperandStack.height, h.live]

/-- Setting the stack back to the height that it has changes nothing. -/
theorem Stands.live_resize {todo : List Control} (h : Stands fr own w todo live s) :
    (s.current.stack.resize live.length).live = live := by
  rw [OperandStack.live_resize (Nat.le_of_eq h.height_eq.symm), h.height_eq, Nat.sub_self,
    List.drop_zero, h.live]

/-- A block is entered, and its label remembers the height. -/
theorem Stands.block {label : Text} {body : List Datum}
    (h : Stands fr own w (.seq ((Instr.block (some (.symbol label)) body).form :: code) :: more)
      live
      s) :
    ∃ t, s.step fr.code 0 = .running t ∧
      Stands fr own w (.seq body :: .block label live.length :: .seq code :: more) live t := by
  obtain ⟨t, ht, hstep⟩ := h.step
  refine ⟨t.goOn (.seq body :: .block label live.length :: .seq code :: more) t.current.stack, ?_,
    ht.goOn _ ht.live⟩
  rw [hstep, State.execute,
    Instr.instr_form (show (Instr.block (some (.symbol label)) body).IsCode from trivial)]
  show t.enter (.block label t.current.stack.height) body = _
  rw [ht.height_eq, State.enter, ht.todo]

/-- So is a loop, which also remembers its body. -/
theorem Stands.loop {label : Text} {body : List Datum}
    (h : Stands fr own w (.seq ((Instr.loop (some (.symbol label)) body).form :: code) :: more) live
      s) :
    ∃ t, s.step fr.code 0 = .running t ∧
      Stands fr own w (.seq body :: .loop label live.length body :: .seq code :: more) live t := by
  obtain ⟨t, ht, hstep⟩ := h.step
  refine ⟨t.goOn (.seq body :: .loop label live.length body :: .seq code :: more) t.current.stack,
    ?_, ht.goOn _ ht.live⟩
  rw [hstep, State.execute,
    Instr.instr_form (show (Instr.loop (some (.symbol label)) body).IsCode from trivial)]
  show t.enter (.loop label t.current.stack.height body) body = _
  rw [ht.height_eq, State.enter, ht.todo]

/-- The loop around the code starts again. -/
theorem Stands.again {label : Text} (hlabel : label ≠ []) {body : List Datum}
    (h : Stands fr own w (.seq ((Instr.br label).form :: code) ::
      .loop label live.length body :: more) live s) :
    ∃ t, s.step fr.code 0 = .running t ∧
      Stands fr own w (.seq body :: .loop label live.length body :: more) live t := by
  obtain ⟨t, ht, hstep⟩ := h.step
  refine ⟨t.goOn (.seq body :: .loop label live.length body :: more)
    (t.current.stack.resize live.length), ?_, ht.goOn _ ht.live_resize⟩
  rw [hstep, State.execute, Instr.instr_form (show (Instr.br label).IsCode from trivial)]
  show t.branch label = _
  rw [State.branch, if_neg hlabel, ht.todo, branchTo, branchTo, if_pos rfl]

/-- A conditional branch on zero goes on behind it. -/
theorem Stands.stay {label : Text}
    (h : Stands fr own w (.seq ((Instr.brIf label).form :: code) :: more) (0 :: live) s) :
    ∃ t, s.step fr.code 0 = .running t ∧ Stands fr own w (.seq code :: more) live t := by
  obtain ⟨t, ht, hstep⟩ := h.step
  obtain ⟨u, hu, hpop⟩ := ht.pop
  refine ⟨u, ?_, hu⟩
  rw [hstep, State.execute, Instr.instr_form (show (Instr.brIf label).IsCode from trivial)]
  exact hpop _

/-- The block around a loop is left from inside the loop. -/
theorem Stands.exit {label other : Text} (hlabel : label ≠ []) (hother : other ≠ label)
    {v : Int32} (hv : v ≠ 0) {body inner : List Datum} {height : Nat}
    (h : Stands fr own w (.seq ((Instr.brIf label).form :: code) :: .loop other height body ::
      .seq inner :: .block label live.length :: more) (v :: live) s) :
    ∃ t, s.step fr.code 0 = .running t ∧ Stands fr own w more live t := by
  obtain ⟨t, ht, hstep⟩ := h.step
  obtain ⟨u, hu, hpop⟩ := ht.pop
  refine ⟨u.goOn more (u.current.stack.resize live.length), ?_, hu.goOn _ hu.live_resize⟩
  rw [hstep, State.execute, Instr.instr_form (show (Instr.brIf label).IsCode from trivial)]
  refine (hpop _).trans ?_
  rw [if_neg hv, State.branch, if_neg hlabel, hu.todo, branchTo, branchTo, if_neg hother, branchTo,
    branchTo, if_pos rfl]

/-- A conditional goes on with the arm that is chosen. -/
theorem Stands.choose {arms : List Datum} {v : Int32}
    (h : Stands fr own w (.seq ((Instr.cond arms).form :: code) :: more) (v :: live) s)
    {arm head : Datum} {body : List Datum} (harm : State.chosenArm v arms = some arm)
    (hitems : arm.items = head :: body) :
    ∃ t, s.step fr.code 0 = .running t ∧
      Stands fr own w (.seq body :: .seq code :: more) live t := by
  obtain ⟨t, ht, hstep⟩ := h.step
  obtain ⟨u, hu, hpop⟩ := ht.pop
  refine ⟨u.goOn (.seq body :: .seq code :: more) u.current.stack, ?_, hu.goOn _ hu.live⟩
  rw [hstep, State.execute, Instr.instr_form (show (Instr.cond arms).IsCode from trivial)]
  refine (hpop _).trans ?_
  rw [harm]
  dsimp only
  rw [hitems, hu.todo]

/-- Without such an arm it goes on behind it. -/
theorem Stands.skip {arms : List Datum} {v : Int32}
    (h : Stands fr own w (.seq ((Instr.cond arms).form :: code) :: more) (v :: live) s)
    (harm : State.chosenArm v arms = none) :
    ∃ t, s.step fr.code 0 = .running t ∧ Stands fr own w (.seq code :: more) live t := by
  obtain ⟨t, ht, hstep⟩ := h.step
  obtain ⟨u, hu, hpop⟩ := ht.pop
  refine ⟨u, ?_, hu⟩
  rw [hstep, State.execute, Instr.instr_form (show (Instr.cond arms).IsCode from trivial)]
  refine (hpop _).trans ?_
  rw [harm]

/-! ## Returning -/

/-- The call has given a value back to its caller. -/
def GaveBack (fr : Frame) (w : World) (v : Int32) (s : State) : Prop :=
  ∃ caller callers, fr.callers = caller :: callers ∧ Shows w s ∧ w.Typed fr.program ∧
    s.current = { caller with stack := caller.stack.push v } ∧ s.callers = callers

/-- The blocks and loops around the code have names. -/
def Labelled (todo : List Control) : Prop :=
  ∀ c ∈ todo, match c with
    | .seq _ => True
    | .block label _ | .loop label _ _ => label ≠ []

/-- A return drops whatever work has labels. -/
theorem returnFrom_labelled {todo : List Control} (h : Labelled todo) (stack : OperandStack) :
    returnFrom stack todo = ([], stack) := by
  induction todo with
  | nil => rfl
  | cons c rest ih =>
    obtain ⟨hc, hrest⟩ := List.forall_mem_cons.mp h
    cases c with
    | seq body => exact ih hrest
    | block label height => rw [returnFrom, if_neg hc, ih hrest]
    | loop label height body => rw [returnFrom, if_neg hc, ih hrest]

/-- A return gives the topmost value back. -/
theorem Stands.ret (hfr : fr.Fits) (hin : fr.scope.inFunction = true) (hmore : Labelled more)
    {v : Int32} (h : Stands fr own w (.seq (Instr.ret.form :: code) :: more) (v :: live) s) :
    ∃ t, s.step fr.code 0 = .running t ∧ GaveBack fr w v t := by
  obtain ⟨hresult, caller, callers, hcallers⟩ := hfr.returns hin
  obtain ⟨t, ht, hstep⟩ := h.step
  have hreturn : returnFrom t.current.stack t.current.todo = ([], t.current.stack) := by
    rw [ht.todo]
    exact returnFrom_labelled hmore _
  have hleft : Stands fr own w [] (v :: live) (t.goOn [] t.current.stack) := ht.goOn [] ht.live
  obtain ⟨u, hu, hpop⟩ := hleft.pop
  refine ⟨{ u with current := { caller with stack := caller.stack.push v }, callers := callers },
    ?_,
    caller, callers, hcallers, ⟨hu.shows.globals, hu.shows.out⟩, hu.globals, rfl, rfl⟩
  rw [hstep, State.execute, Instr.instr_form (show Instr.ret.IsCode from trivial)]
  show t.ret = _
  rw [State.ret, hreturn]
  show (t.goOn [] t.current.stack).leave = _
  rw [State.leave, hleft.func, if_pos hresult, hpop, State.giveBack, hu.callers, hcallers]
  show Progress.running { u with
    current := { caller with
      stack := if u.current.func.hasResult then caller.stack.push v else caller.stack },
    callers := callers } = _
  rw [hu.func, if_pos hresult]

end Code

end WatCompiler
