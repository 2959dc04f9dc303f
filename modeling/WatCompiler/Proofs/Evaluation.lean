import Mathlib.Algebra.Group.Int.Defs
import WatCompiler.Host
import WatCompiler.Program
import WatCompiler.Table
import WatCompiler.Wat.Arith

/-!
# Running programs

What a checked program does, said on its syntax alone. Values are words of 32 bits: `None` and
`False` are zero and `True` is one. A computation may trap, and it may not be over after the calls
and rounds that it was allowed: with `n` of them, calls are nested at most `n` deep and every loop
goes at most `n` rounds. A program ends if it is over with enough of them.

Checked programs have no undeclared names and no unknown operators; these mean zero here.
-/

namespace WatCompiler

/-! ## Values -/

/-- The word that stands for a literal. -/
def Literal.word : Literal → Int32
  | .none | .false => 0
  | .true => 1
  | .number value | .other _ value => value

/-- What a unary operator makes of its operand. -/
def UnaryOp.apply (op : UnaryOp) (arg : Int32) : Int32 :=
  match op with
  | .not => (decide (arg = 0)).toInt32
  | .negate => .ofInt (-arg.toInt)
  | .plus | .other _ => arg

/-- What a binary operator makes of its operands. Sums, differences and products are taken modulo
two to the 32nd, and quotients are cut toward zero. -/
def BinaryOp.apply (op : BinaryOp) (lhs rhs : Int32) : Except Trap Int32 :=
  let a := lhs.toInt
  let b := rhs.toInt
  match op with
  | .add => .ok (.ofInt (a + b))
  | .subtract => .ok (.ofInt (a - b))
  | .multiply => .ok (.ofInt (a * b))
  | .divide =>
    if b = 0 then .error .divideByZero
    else if a = -2 ^ 31 ∧ b = -1 then .error .overflow
    else .ok (.ofInt (a.tdiv b))
  | .remainder => if b = 0 then .error .divideByZero else .ok (.ofInt (a.tmod b))
  | .equal | .is => .ok (decide (a = b)).toInt32
  | .notEqual => .ok (decide (a ≠ b)).toInt32
  | .lessEqual => .ok (decide (a ≤ b)).toInt32
  | .greaterEqual => .ok (decide (b ≤ a)).toInt32
  | .less => .ok (decide (a < b)).toInt32
  | .greater => .ok (decide (b < a)).toInt32
  | .other _ => .ok 0

/-- A value of a type as it is printed. -/
def Ty.render (type : Ty) (value : Int32) : Text :=
  match type with
  | .none => "None"
  | .bool => if value = 0 then "False" else "True"
  | .int | .any | .other _ => Text.ofInt value.toInt

/-! ## Computations -/

/-- What a program has changed. The lines stand in the order in which they were printed. -/
structure World where
  globals : Table Int32
  printed : List Text
deriving DecidableEq, Repr

/-- Everything that was printed. -/
def World.text (w : World) : Text := w.printed.flatMap fun line => line ++ "\n"

/-- A computation of a program. Where it traps, what was changed before stays changed. -/
abbrev Eval := ExceptT Trap (StateT World Option)

namespace Eval

/-- Prints a line. -/
def print (line : Text) : Eval Unit := modify fun w => { w with printed := w.printed ++ [line] }

/-- The value of a variable. It is one of the call's own if that declares one. -/
def get (own : Table Int32) (name : Text) : Eval Int32 := do
  let w ← getThe World
  pure ((own.find? name <|> w.globals.find? name).getD 0)

/-- Gives a variable a value. It is one of the call's own if that declares one. -/
def set (own : Table Int32) (name : Text) (value : Int32) : Eval (Table Int32) :=
  if own.has name then pure (own.insert name value)
  else do
    modify fun w => { w with globals := w.globals.insert name value }
    pure own

/-- Not over. -/
def unfinished {α : Type} : Eval α := fun _ => none

end Eval

/-- What a built-in function does with arguments of given types. -/
def Host.apply (host : Host) (types : List Ty) (args : List Int32) : Eval Int32 :=
  match host, types, args with
  | .print, type :: _, value :: _ => do
    Eval.print (type.render value)
    pure 0
  | .abs, _, value :: _ => pure (if value < 0 then -value else value)
  | .min, _, lhs :: rhs :: _ => pure (if rhs < lhs then rhs else lhs)
  | .max, _, lhs :: rhs :: _ => pure (if lhs < rhs then rhs else lhs)
  | .pow, _, base :: exponent :: _ => pure (intPow base exponent)
  | _, _, _ => pure 0

section Code

variable (calls : Text → List Int32 → Eval Int32)

mutual

/-- The value of an expression. Operands and arguments come from left to right, and `calls` does
what the program's own functions do. -/
def Expr.eval (own : Table Int32) : Expr Ty → Eval Int32
  | .literal _ value => pure value.word
  | .ident _ name => Eval.get own name
  | .unary _ op arg => do
    let value ← arg.eval own
    pure (op.apply value)
  | .binary _ op lhs rhs => do
    let a ← lhs.eval own
    let b ← rhs.eval own
    ExceptT.mk (pure (op.apply a b))
  | .paren _ arg => arg.eval own
  | .call _ function args => do
    let values ← evalArgs own args
    match Host.ofName? function with
    | some host => host.apply (args.map fun arg => arg.info.ann) values
    | none => calls function values

/-- The values of arguments. -/
def evalArgs (own : Table Int32) : List (Expr Ty) → Eval (List Int32)
  | [] => pure []
  | arg :: rest => do
    let value ← arg.eval own
    let values ← evalArgs own rest
    pure (value :: values)

end

/-- How statements end. -/
inductive Flow
  /-- The next statement has its turn, with the variables of the call as they are then. -/
  | next (own : Table Int32)
  | returned (value : Int32)

/-- Repeats a body as long as a test is not zero, for a number of rounds. -/
def repeatWhile (test : Table Int32 → Eval Int32) (body : Table Int32 → Eval Flow) :
    Nat → Table Int32 → Eval Flow
  | 0, _ => Eval.unfinished
  | rounds + 1, own => do
    let value ← test own
    if value = 0 then pure (.next own)
    else
      match ← body own with
      | .next own => repeatWhile test body rounds own
      | .returned value => pure (.returned value)

variable (rounds : Nat)

mutual

/-- What a statement does, each loop in it in no more than the given rounds. -/
def Stmt.exec : Stmt Ty → Table Int32 → Eval Flow
  | .assign _ target value, own => do
    let value ← value.eval calls own
    let own ← Eval.set own target value
    pure (.next own)
  | .expr _ value, own => do
    let _ ← value.eval calls own
    pure (.next own)
  | .ret _ none, _ => pure (.returned 0)
  | .ret _ (some value), own => do
    let value ← value.eval calls own
    pure (.returned value)
  | .while_ _ test body, own =>
    repeatWhile (fun own => test.eval calls own) (fun own => execAll body own) rounds own
  | .cond _ none body _, own => execAll body own
  | .cond _ (some test) body orElse, own => do
    let value ← test.eval calls own
    if value = 0 then execElse orElse own else execAll body own
  | .pass _, own => pure (.next own)

/-- What statements do, one after the other. -/
def execAll : List (Stmt Ty) → Table Int32 → Eval Flow
  | [], own => pure (.next own)
  | s :: rest, own => do
    match ← s.exec own with
    | .next own => execAll rest own
    | .returned value => pure (.returned value)

/-- What the next arm of a conditional does. -/
def execElse : Option (Stmt Ty) → Table Int32 → Eval Flow
  | none, own => pure (.next own)
  | some next, own => next.exec own

end

end Code

/-! ## Programs -/

/-- The variables of a call before its statements. -/
def FuncDef.start (f : FuncDef Ty) (args : List Int32) : Table Int32 :=
  (f.params.map Param.name).zip args ++ f.locals.map fun v => (v.name, v.literal.word)

namespace Program

/-- What a call of one of the program's own functions gives: what it returns, and zero if it comes
to its end. -/
def call (p : Program Ty) : Nat → Text → List Int32 → Eval Int32
  | 0, _, _ => Eval.unfinished
  | n + 1, name, args =>
    match p.functions.find? fun f => f.name = name with
    | none => pure 0
    | some f => do
      match ← execAll (p.call n) n f.stmts (f.start args) with
      | .next _ => pure 0
      | .returned value => pure value

/-- What a program does: its trap, if it has one, and what it has changed; nothing if it is not
over. -/
def evaluate (p : Program Ty) (n : Nat) : Option (Option Trap × World) :=
  match execAll (p.call n) n p.stmts [] ⟨p.globals.map fun v => (v.name, v.literal.word), []⟩ with
  | none => none
  | some (.ok _, w) => some (none, w)
  | some (.error cause, w) => some (some cause, w)

end Program

end WatCompiler
