import WatCompiler.Wat.Instr

/-!
# Failures of a run
-/

namespace WatCompiler

/-- Why a run failed. -/
inductive Failure
  | trap (cause : Trap)
  | stepLimit
  | writeFailed
  | badConst (fault : ConstFault)
  | unsupported (head : Text)
  | unknownImport (name : Text)
  /-- The code lacks a part: the label of a block, the head of an arm, the function that is called,
  or an argument of the function that is called. -/
  | missingPart
deriving Repr

/-- The wording of a failure. -/
def Failure.message : Failure → Text
  | trap cause => cause.message
  | stepLimit => "step limit exceeded"
  | writeFailed => "write failed"
  | badConst fault => fault.message
  | unsupported head => "unsupported instruction (" ++ head ++ ")"
  | unknownImport name => "unknown import " ++ name
  | missingPart => "missing part"

/-- Applies the instruction with a given name to two operands. -/
def applyNamed (name : Text) (lhs rhs : Int32) : Except Failure Int32 :=
  match ArithOp.ofName? name with
  | none => .error (.unsupported name)
  | some op => (op.apply lhs rhs).mapError .trap

end WatCompiler
