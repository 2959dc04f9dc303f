import WatCompiler.Program
import WatCompiler.Text.Quoted

/-!
# Faults of type

Why a program is refused although its form is right.
-/

namespace WatCompiler.Typing

/-- The statements that ask for a condition. -/
inductive Construct
  | loop
  | conditional
deriving DecidableEq, Repr

/-- How messages name a construct. -/
def Construct.name : Construct → Text
  | loop => "while"
  | conditional => "if/elif"

/-- Why a program is refused. -/
inductive Fault
  | nameIsFunction (name : Text)
  | duplicateGlobal (name : Text)
  | initializerType (found declared : Ty) (name : Text)
  | builtinRedefined (name : Text)
  | duplicateFunction (name : Text)
  | nameIsVariable (name : Text)
  | shadowsBuiltin (name : Text)
  | duplicateLocal (name function : Text)
  | alwaysReturns (function : Text) (found : Ty)
  | mayNotReturn (function : Text) (declared : Ty)
  | returnsOther (function : Text) (declared found : Ty)
  | globalAssignedInFunction (name : Text)
  | undefinedVariable (name : Text)
  | assignmentType (found declared : Ty)
  | returnOutsideFunction
  | returnType (declared found : Ty)
  | conditionType (construct : Construct) (found : Ty)
  | undefinedUnary (op : UnaryOp)
  | unaryOperand (op : UnaryOp) (found : Ty)
  | binaryOperands (op : BinaryOp) (lhs rhs : Ty)
  | undefinedFunction (name : Text)
  | argumentCount (expected : Nat) (function : Text) (found : Nat)
  | argumentType (expected : Ty) (number : Nat) (function : Text) (found : Ty)
deriving DecidableEq, Repr

/-- The wording of a fault. -/
def Fault.message : Fault → Text
  | nameIsFunction name => name ++ " has already been defined as a function"
  | duplicateGlobal name => "duplicate definition of " ++ name
  | initializerType found declared name =>
    "cannot assign " ++ found.name ++ " to " ++ declared.name ++ " " ++ name
  | builtinRedefined name =>
    "function " ++ name ++ " is a builtin function and cannot be redefined"
  | duplicateFunction name => "duplicate definition of function " ++ name
  | nameIsVariable name => "variable with name " ++ name ++ " already exists"
  | shadowsBuiltin name => name ++ " shadows a builtin function"
  | duplicateLocal name function =>
    "duplicate definition of " ++ name ++ " in function " ++ function
  | alwaysReturns function found =>
    "function " ++ function ++ " does not have a return type but always returns " ++ found.name
  | mayNotReturn function declared =>
    "function " ++ function ++ " should return " ++ declared.name ++ " on every reachable path"
  | returnsOther function declared found =>
    "function " ++ function ++ " returns " ++ declared.name ++ ", but got " ++ found.name
  | globalAssignedInFunction name =>
    "cannot assign to " ++ name ++ " explicitly not declared in the scope"
  | undefinedVariable name => "undefined variable " ++ name
  | assignmentType found declared =>
    "cannot assign expression of type " ++ found.name ++ " to " ++ declared.name
  | returnOutsideFunction => "returns cannot occur at the outermost level"
  | returnType declared found =>
    "expected a return of type " ++ declared.name ++ ", but got " ++ found.name
  | conditionType construct found =>
    construct.name ++ " condition must be bool, got " ++ found.name
  | undefinedUnary op => "undefined unary operation " ++ op.symbol
  | unaryOperand op found =>
    Text.quote op.symbol ++ " operation is not defined on type " ++ found.name
  | binaryOperands op lhs rhs =>
    "cannot apply " ++ op.symbol ++ " on " ++ lhs.name ++ " and " ++ rhs.name
  | undefinedFunction name => "undefined function " ++ name
  | argumentCount expected function found =>
    "expected " ++ Text.ofNat expected ++ " arguments to " ++ function ++ ", but got " ++
      Text.ofNat found
  | argumentType expected number function found =>
    "expected " ++ expected.name ++ " as argument " ++ Text.ofNat number ++ " of " ++ function ++
      ", but got " ++ found.name

end WatCompiler.Typing
