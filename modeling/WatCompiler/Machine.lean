import WatCompiler.Machine.OperandStack
import WatCompiler.Machine.Output
import WatCompiler.Module

/-!
# The machine

Runs a module one instruction at a time. A running function has its locals, its operands, and what
is left to do: sequences of instructions, with the blocks and loops around them in between. Every
instruction counts as one step before it is executed, and a run can be limited to a number of
steps.
-/

namespace WatCompiler

/-- What is left to do in a function, innermost first. -/
inductive Control
  /-- Instructions. -/
  | seq (code : List Datum)
  /-- The end of a block that started at the given height. -/
  | block (label : Text) (height : Nat)
  /-- The end of a loop that started at the given height. -/
  | loop (label : Text) (height : Nat) (body : List Datum)
deriving Repr

/-- A function that runs, or that waits for another one. -/
structure Activation where
  func : Func
  locals : Table Int32
  stack : OperandStack
  todo : List Control
deriving Repr

/-- A moment of a run. -/
structure State where
  globals : Table Int32
  steps : Nat
  out : Output
  current : Activation
  callers : List Activation
deriving Repr

/-- What one move of the machine leads to. -/
inductive Progress
  | running (s : State)
  /-- The run is over, successful unless there is a failure. -/
  | ended (s : State) (failure : Option Failure)
deriving Repr

/-! ## Entering functions -/

/-- Gives parameters their values. There may be more values than parameters, but not fewer. -/
def bindParams (locals : Table Int32) : List Text → List Int32 → Option (Table Int32)
  | [], _ => some locals
  | _ :: _, [] => none
  | param :: params, arg :: args => bindParams (locals.insert param arg) params args

/-- The start of a function. Its locals are zero. -/
def Func.activate? (f : Func) (args : List Int32) : Option Activation :=
  (bindParams [] f.params args).map fun locals =>
    ⟨f, f.locals.foldl (fun table name => table.insert name 0) locals, .empty, [.seq f.body]⟩

/-! ## Leaving blocks -/

/-- What is left to do after a branch. A label that nothing has leads to the end of the function. -/
def branchTo (label : Text) (stack : OperandStack) : List Control → List Control × OperandStack
  | [] => ([], stack)
  | .seq _ :: rest => branchTo label stack rest
  | .block name height :: rest =>
    if name = label then (rest, stack.resize height) else branchTo label stack rest
  | .loop name height body :: rest =>
    if name = label then (.seq body :: .loop name height body :: rest, stack.resize height)
    else branchTo label stack rest

/-- What is left to do after a return: nothing, unless a loop without a name starts again. Blocks
without a name set back the stack. -/
def returnFrom (stack : OperandStack) : List Control → List Control × OperandStack
  | [] => ([], stack)
  | .seq _ :: rest => returnFrom stack rest
  | .block name height :: rest =>
    returnFrom (if name = [] then stack.resize height else stack) rest
  | .loop name height body :: rest =>
    if name = [] then (.seq body :: .loop name height body :: rest, stack.resize height)
    else returnFrom stack rest

namespace State

/-- Goes on with other things to do. -/
def goOn (s : State) (todo : List Control) (stack : OperandStack) : State :=
  { s with current := { s.current with todo := todo, stack := stack } }

/-- The run fails. -/
def fail (s : State) (failure : Failure) : Progress := .ended s (some failure)

/-- Puts a value on the stack and goes on. -/
def push (s : State) (value : Int32) : State :=
  { s with current := { s.current with stack := s.current.stack.push value } }

/-- Takes a value from the stack; without one the run fails. -/
def pop (s : State) (next : Int32 → State → Progress) : Progress :=
  match s.current.stack.pop? with
  | none => s.fail (.trap .underflow)
  | some (value, stack) => next value { s with current := { s.current with stack := stack } }

/-- Goes back to the caller with a value, or ends the run. -/
def giveBack (s : State) (value : Int32) : Progress :=
  match s.callers with
  | [] => .ended s none
  | caller :: callers =>
    let stack := if s.current.func.hasResult then caller.stack.push value else caller.stack
    .running { s with current := { caller with stack := stack }, callers := callers }

/-- Leaves the current function with what is on its stack. -/
def leave (s : State) : Progress :=
  if s.current.func.hasResult then s.pop fun value s => s.giveBack value else s.giveBack 0

/-- The code of the current function has ended without a return. -/
def fallOff (s : State) : Progress :=
  let f := s.current.func
  if s.current.stack.height = f.results then s.leave
  else s.fail (.trap (.finalHeight f.display s.current.stack.height f.results))

/-- Branches to a label; the empty label is just what follows. -/
def branch (s : State) (label : Text) : Progress :=
  if label = [] then .running s
  else
    let (todo, stack) := branchTo label s.current.stack s.current.todo
    .running (s.goOn todo stack)

/-- Returns from the current function. -/
def ret (s : State) : Progress :=
  let (todo, stack) := returnFrom s.current.stack s.current.todo
  let s := s.goOn todo stack
  if todo.isEmpty then s.leave else .running s

/-- Enters a body with the given end. -/
def enter (s : State) (close : Control) (body : List Datum) : Progress :=
  .running (s.goOn (.seq body :: close :: s.current.todo) s.current.stack)

/-- Calls a function of the host or of the module. -/
def call (m : Module) (s : State) (name : Text) : Progress :=
  let arity := ((m.signature? name).map Prod.fst).getD 0
  match s.current.stack.popMany? [] arity with
  | none => s.fail (.trap .underflow)
  | some (args, stack) =>
    let s := s.goOn s.current.todo stack
    match m.imports.find? name with
    | some host =>
      match host.call args s.out with
      | .error failure => s.fail failure
      | .ok (value, out) => .running ({ s with out := out }.push value)
    | none =>
      match (m.function? name).bind fun f => f.activate? args with
      | none => s.fail .missingPart
      | some callee => .running { s with current := callee, callers := s.current :: s.callers }

/-- The first arm of a conditional that fits its value. -/
def chosenArm (value : Int32) (arms : List Datum) : Option Datum :=
  arms.find? fun arm => decide (arm.head = "then") == decide (value ≠ 0)

/-- Executes an instruction; what is left to do is what follows it. -/
def execute (m : Module) (s : State) (d : Datum) : Progress :=
  match d.instr with
  | .const value => .running (s.push value)
  | .badConst fault => s.fail (.badConst fault)
  | .localGet name => .running (s.push ((s.current.locals.find? name).getD 0))
  | .localSet name => s.pop fun value s =>
    .running { s with current := { s.current with locals := s.current.locals.insert name value } }
  | .globalGet name => .running (s.push ((s.globals.find? name).getD 0))
  | .globalSet name => s.pop fun value s =>
    .running { s with globals := s.globals.insert name value }
  | .call name => s.call m name
  | .ret => s.ret
  | .br label => s.branch label
  | .brIf label => s.pop fun value s => if value = 0 then .running s else s.branch label
  | .block none _ => s.fail .missingPart
  | .block (some label) body => s.enter (.block label.text s.current.stack.height) body
  | .loop none _ => s.fail .missingPart
  | .loop (some label) body => s.enter (.loop label.text s.current.stack.height body) body
  | .cond arms => s.pop fun value s =>
    match chosenArm value arms with
    | none => .running s
    | some arm =>
      match arm.items with
      | [] => s.fail .missingPart
      | _ :: body => .running (s.goOn (.seq body :: s.current.todo) s.current.stack)
  | .arith op => s.pop fun rhs s => s.pop fun lhs s =>
    match op.apply lhs rhs with
    | .error trap => s.fail (.trap trap)
    | .ok value => .running (s.push value)
  | .unknown head => s.pop fun _ s => s.pop fun _ s => s.fail (.unsupported head)

/-- One move of the machine. With `limit` zero there is no limit to the number of steps. -/
def step (m : Module) (limit : Nat) (s : State) : Progress :=
  match s.current.todo with
  | [] => s.fallOff
  | .seq [] :: rest => .running (s.goOn rest s.current.stack)
  | .seq (d :: code) :: rest =>
    let s := { s.goOn (.seq code :: rest) s.current.stack with steps := s.steps + 1 }
    if 0 < limit ∧ limit < s.steps then s.fail .stepLimit else s.execute m d
  | .block name height :: rest =>
    let stack := s.current.stack
    .running (s.goOn rest (if name = [] then stack.resize height else stack))
  | .loop name height body :: rest =>
    let stack := s.current.stack
    if name = [] then
      .running (s.goOn (.seq body :: .loop name height body :: rest) (stack.resize height))
    else .running (s.goOn rest stack)

/-- Moves the machine until the run is over, but no more than `fuel` times. -/
def runFor (m : Module) (limit : Nat) : Nat → State → Option (State × Option Failure)
  | 0, _ => none
  | fuel + 1, s =>
    match s.step m limit with
    | .running s => runFor m limit fuel s
    | .ended s failure => some (s, failure)

end State

/-! ## Machines -/

/-- A module together with what runs leave behind. With `limit` zero there is no limit to the number
of steps. -/
structure Machine where
  code : Module
  globals : Table Int32
  steps : Nat
  limit : Nat
deriving Repr

/-- How a run ended. -/
structure Run where
  machine : Machine
  printed : Text
  failure : Option Failure
deriving Repr

namespace Machine

/-- The machine of a module before any run. -/
def ofModule (m : Module) (limit : Nat) : Machine := ⟨m, m.globals, 0, limit⟩

/-- The start of a run. The exported function gets no arguments. -/
def start? (machine : Machine) (room : Option Nat) : Option State :=
  (machine.code.entry.activate? []).map fun current =>
    ⟨machine.globals, machine.steps, .empty room, current, []⟩

/-- Runs the exported function with at most `fuel` moves. Its output takes `room` lines, or any
number of them. -/
def run (machine : Machine) (room : Option Nat) (fuel : Nat) : Option Run :=
  match machine.start? room with
  | none => some ⟨machine, [], some .missingPart⟩
  | some s =>
    (s.runFor machine.code machine.limit fuel).map fun (s, failure) =>
      ⟨{ machine with globals := s.globals, steps := s.steps }, s.out.text, failure⟩

end Machine

end WatCompiler
