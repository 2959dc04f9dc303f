import WatCompiler.Text.Decimal

/-!
# Word arithmetic

The instructions that take two words of 32 bits from the stack and put one back. Sums, differences
and products wrap around, division goes toward zero, and comparisons give one or zero.
-/

namespace WatCompiler

/-- Failures that are the running program's own. -/
inductive Trap
  | divideByZero
  | overflow
  | underflow
  | finalHeight (function : Text) (found expected : Nat)
deriving DecidableEq, Repr

/-- The wording of a trap. -/
def Trap.message : Trap → Text
  | divideByZero => "trap: integer divide by zero"
  | overflow => "trap: integer overflow"
  | underflow => "trap: stack underflow"
  | finalHeight function found expected =>
    "trap: function " ++ function ++ " ended with " ++ Text.ofNat found ++
      " values on the stack, want " ++ Text.ofNat expected

/-- Instructions with two operands. -/
inductive ArithOp
  | add | sub | mul | div | rem | xor | eq | ne | gt | lt | ge | le
deriving DecidableEq, Repr

namespace ArithOp

/-- The name of an instruction. -/
def name : ArithOp → Text
  | add => "i32.add"
  | sub => "i32.sub"
  | mul => "i32.mul"
  | div => "i32.div_s"
  | rem => "i32.rem_s"
  | xor => "i32.xor"
  | eq => "i32.eq"
  | ne => "i32.ne"
  | gt => "i32.gt_s"
  | lt => "i32.lt_s"
  | ge => "i32.ge_s"
  | le => "i32.le_s"

/-- Every instruction with two operands. -/
def all : List ArithOp := [add, sub, mul, div, rem, xor, eq, ne, gt, lt, ge, le]

/-- The instruction with a given name. -/
def ofName? (t : Text) : Option ArithOp := all.find? fun op => op.name == t

/-- One for true and zero for false. -/
def truth (b : Bool) : Int32 := if b then 1 else 0

/-- What an instruction makes of its operands. -/
def apply (op : ArithOp) (lhs rhs : Int32) : Except Trap Int32 :=
  match op with
  | add => .ok (lhs + rhs)
  | sub => .ok (lhs - rhs)
  | mul => .ok (lhs * rhs)
  | div =>
    if rhs = 0 then .error .divideByZero
    else if lhs = Int32.minValue ∧ rhs = -1 then .error .overflow
    else .ok (lhs / rhs)
  | rem =>
    if rhs = 0 then .error .divideByZero else if rhs = -1 then .ok 0 else .ok (lhs % rhs)
  | xor => .ok (lhs ^^^ rhs)
  | eq => .ok (truth (lhs = rhs))
  | ne => .ok (truth (lhs ≠ rhs))
  | gt => .ok (truth (lhs > rhs))
  | lt => .ok (truth (lhs < rhs))
  | ge => .ok (truth (lhs ≥ rhs))
  | le => .ok (truth (lhs ≤ rhs))

end ArithOp

end WatCompiler
