import WatCompiler.Typing.Fault
import WatCompiler.Typing.Scope

/-!
# Type checking

Checking annotates a program. An expression gets its type. A statement, a list of statements and a
body get the type that they are sure to return, which is `none` if they may run off their end. The
first fault in the order of the program is the answer: global variables, the names of all functions,
the functions, the top-level statements.
-/

namespace WatCompiler

/-- The type of a literal. -/
def Literal.type : Literal → Ty
  | .none => .none
  | .true | .false => .bool
  | .number _ | .other _ _ => .int

/-- The type of a unary operator's operand and result. -/
def UnaryOp.type? : UnaryOp → Option Ty
  | .not => some .bool
  | .negate | .plus => some .int
  | .other _ => none

/-- The type that a binary operator gives when applied to two operands of the same type `type`. -/
def BinaryOp.resultType? (op : BinaryOp) (type : Ty) : Option Ty :=
  match type, op with
  | .int, .is => none
  | .int, .add | .int, .subtract | .int, .multiply | .int, .divide | .int, .remainder => some .int
  | .int, _ => some .bool
  | .bool, .equal | .bool, .notEqual => some .bool
  | .none, .is => some .bool
  | _, _ => none

namespace Typing

/-- A fault and its place. -/
abbrev Failure := Located Fault

/-- Refuses the program because of something at a given place. -/
def refuse {α : Type} (pos : Position) (fault : Fault) : Except Failure α := .error ⟨fault, pos⟩

variable {α : Type}

mutual

/-- Gives an expression and its parts their types. -/
def checkExpr (scope : Scope) : Expr α → Except Failure (Expr Ty)
  | .literal info value => .ok (.literal ⟨value.type, info.pos⟩ value)
  | .ident info name =>
    match scope.lookup? name with
    | none => refuse info.pos (.undefinedVariable name)
    | some type => .ok (.ident ⟨type, info.pos⟩ name)
  | .unary info op arg => do
    let arg ← checkExpr scope arg
    match op.type? with
    | none => refuse info.pos (.undefinedUnary op)
    | some type =>
      if arg.info.ann = type then pure (.unary ⟨type, info.pos⟩ op arg)
      else refuse info.pos (.unaryOperand op arg.info.ann)
  | .binary info op lhs rhs => do
    let lhs ← checkExpr scope lhs
    let rhs ← checkExpr scope rhs
    let result := if lhs.info.ann = rhs.info.ann then op.resultType? lhs.info.ann else none
    match result with
    | none => refuse info.pos (.binaryOperands op lhs.info.ann rhs.info.ann)
    | some type => pure (.binary ⟨type, info.pos⟩ op lhs rhs)
  | .paren info arg => do
    let arg ← checkExpr scope arg
    pure (.paren ⟨arg.info.ann, info.pos⟩ arg)
  | .call info function args =>
    match scope.functions.find? function with
    | none => refuse info.pos (.undefinedFunction function)
    | some signature =>
      if signature.params.length ≠ args.length then
        refuse info.pos (.argumentCount signature.params.length function args.length)
      else do
        let args ← checkArgs scope function 1 signature.params args
        pure (.call ⟨signature.returns, info.pos⟩ function args)

/-- Gives arguments their types, which have to be those of the parameters. The first argument has
the given number. -/
def checkArgs (scope : Scope) (function : Text) (number : Nat) (params : List Ty) :
    List (Expr α) → Except Failure (List (Expr Ty))
  | [] => .ok []
  | arg :: rest => do
    let first ← checkExpr scope arg
    let expected := params.headD .any
    if expected ≠ .any ∧ first.info.ann ≠ expected then
      refuse arg.info.pos (.argumentType expected number function first.info.ann)
    else
      let others ← checkArgs scope function (number + 1) params.tail rest
      pure (first :: others)

end

/-- Checks an expression that has to be a truth value. -/
def checkCondition (scope : Scope) (construct : Construct) (test : Expr α) :
    Except Failure (Expr Ty) := do
  let checked ← checkExpr scope test
  if checked.info.ann = .bool then pure checked
  else refuse test.info.pos (.conditionType construct checked.info.ann)

/-- The type of a variable that may be assigned to. In a function these are only its own. -/
def assignable (scope : Scope) (pos : Position) (name : Text) : Except Failure Ty :=
  match scope.local? name, scope.globals.find? name with
  | some type, _ => .ok type
  | none, some type =>
    if scope.inFunction then refuse pos (.globalAssignedInFunction name) else .ok type
  | none, none => refuse pos (.undefinedVariable name)

/-- What a list of statements is sure to return: what the last of those does that are sure to. -/
def guarantee (stmts : List (Stmt Ty)) : Ty :=
  stmts.foldl (fun found s => if s.info.ann = .none then found else s.info.ann) .none

/-- What an arm of a conditional is sure to return. An arm with a test is only sure to return what
its body does if the arm after it is sure to return. -/
def armGuarantee (test : Option (Expr Ty)) (body : List (Stmt Ty)) (orElse : Option (Stmt Ty)) :
    Ty :=
  match test, orElse with
  | none, _ => guarantee body
  | some _, none => .none
  | some _, some next => if next.info.ann = .none then .none else guarantee body

mutual

/-- Gives a statement and its parts their types. -/
def checkStmt (scope : Scope) : Stmt α → Except Failure (Stmt Ty)
  | .assign info target value => do
    let type ← assignable scope info.pos target
    let value ← checkExpr scope value
    if value.info.ann = type then pure (.assign ⟨.none, info.pos⟩ target value)
    else refuse info.pos (.assignmentType value.info.ann type)
  | .expr info value => do
    let value ← checkExpr scope value
    pure (.expr ⟨.none, info.pos⟩ value)
  | .ret info value =>
    if scope.inFunction then
      match value with
      | none => .ok (.ret ⟨.none, info.pos⟩ none)
      | some value => do
        let value ← checkExpr scope value
        if value.info.ann = scope.returns then
          pure (.ret ⟨scope.returns, info.pos⟩ (some value))
        else refuse info.pos (.returnType scope.returns value.info.ann)
    else refuse info.pos .returnOutsideFunction
  | .while_ info test body => do
    let test ← checkCondition scope .loop test
    let body ← checkStmts scope body
    pure (.while_ ⟨.none, info.pos⟩ test body)
  | .cond info test body orElse => do
    let test ← match test with
      | none => pure none
      | some test => some <$> checkCondition scope .conditional test
    let body ← checkStmts scope body
    let orElse ← checkArm scope orElse
    pure (.cond ⟨armGuarantee test body orElse, info.pos⟩ test body orElse)
  | .pass info => .ok (.pass ⟨.none, info.pos⟩)

/-- Gives statements their types. -/
def checkStmts (scope : Scope) : List (Stmt α) → Except Failure (List (Stmt Ty))
  | [] => .ok []
  | s :: rest => do
    let first ← checkStmt scope s
    let others ← checkStmts scope rest
    pure (first :: others)

/-- Gives the next arm of a conditional, if there is one, its types. -/
def checkArm (scope : Scope) : Option (Stmt α) → Except Failure (Option (Stmt Ty))
  | none => .ok none
  | some arm => do
    let arm ← checkStmt scope arm
    pure (some arm)

end

/-- Checks that a variable's literal has the declared type. -/
def checkVarDef (v : VarDef α) : Except Failure (VarDef Ty) :=
  if v.literal.type = v.type then
    .ok ⟨⟨v.type, v.info.pos⟩, v.name, v.type, ⟨v.literal.type, v.literalInfo.pos⟩, v.literal⟩
  else refuse v.info.pos (.initializerType v.literal.type v.type v.name)

/-- Checks global variables and brings them into scope. -/
def checkGlobals (scope : Scope) : List (VarDef α) → Except Failure (Scope × List (VarDef Ty))
  | [] => .ok (scope, [])
  | v :: rest =>
    if scope.functions.has v.name then refuse v.info.pos (.nameIsFunction v.name)
    else if scope.globals.has v.name then refuse v.info.pos (.duplicateGlobal v.name)
    else do
      let first ← checkVarDef v
      let (scope, others) ← checkGlobals (scope.withGlobal v.name v.type) rest
      pure (scope, first :: others)

/-- Brings functions into scope. -/
def declareFunctions (scope : Scope) : List (FuncDef α) → Except Failure Scope
  | [] => .ok scope
  | f :: rest =>
    if builtins.has f.name then refuse f.pos (.builtinRedefined f.name)
    else if scope.functions.has f.name then refuse f.pos (.duplicateFunction f.name)
    else if scope.globals.has f.name then refuse f.pos (.nameIsVariable f.name)
    else declareFunctions (scope.withFunction f.name ⟨f.params.map Param.type, f.returns⟩) rest

/-- Brings a parameter or local variable of a function into scope. -/
def declareLocal (scope : Scope) (function : Text) (pos : Position) (name : Text) (type : Ty) :
    Except Failure Scope :=
  if builtins.has name then refuse pos (.shadowsBuiltin name)
  else if (scope.local? name).isSome then refuse pos (.duplicateLocal name function)
  else .ok (scope.withLocal name type)

/-- Checks parameters and brings them into scope. -/
def checkParams (scope : Scope) (function : Text) :
    List (Param α) → Except Failure (Scope × List (Param Ty))
  | [] => .ok (scope, [])
  | p :: rest => do
    let scope ← declareLocal scope function p.info.pos p.name p.type
    let (scope, others) ← checkParams scope function rest
    pure (scope, ⟨⟨p.type, p.info.pos⟩, p.name, p.type⟩ :: others)

/-- Checks local variables and brings them into scope. -/
def checkLocals (scope : Scope) (function : Text) :
    List (VarDef α) → Except Failure (Scope × List (VarDef Ty))
  | [] => .ok (scope, [])
  | v :: rest => do
    let inner ← declareLocal scope function v.info.pos v.name v.type
    let first ← checkVarDef v
    let (scope, others) ← checkLocals inner function rest
    pure (scope, first :: others)

/-- Checks that what a function is sure to return is what it declares. -/
def checkGuarantee (f : FuncDef α) (found : Ty) : Except Failure Unit :=
  if found = f.returns then .ok ()
  else if f.returns = .none then refuse f.pos (.alwaysReturns f.name found)
  else if found = .none then refuse f.pos (.mayNotReturn f.name f.returns)
  else refuse f.pos (.returnsOther f.name f.returns found)

/-- Checks a function in the scope of its program. -/
def checkFuncDef (scope : Scope) (f : FuncDef α) : Except Failure (FuncDef Ty) := do
  let (scope, params) ← checkParams (scope.enter f.returns) f.name f.params
  let (scope, locals) ← checkLocals scope f.name f.locals
  let stmts ← checkStmts scope f.stmts
  checkGuarantee f (guarantee stmts)
  pure ⟨f.pos, f.name, params, f.returns, ⟨guarantee stmts, f.bodyInfo.pos⟩, locals, stmts⟩

/-- Checks functions in the scope of their program. -/
def checkFunctions (scope : Scope) : List (FuncDef α) → Except Failure (List (FuncDef Ty))
  | [] => .ok []
  | f :: rest => do
    let first ← checkFuncDef scope f
    let others ← checkFunctions scope rest
    pure (first :: others)

end Typing

/-- Checks a program. What it was annotated with before does not matter. -/
def Program.check {α : Type} (p : Program α) : Except (Located Typing.Fault) (Program Ty) := do
  let (scope, globals) ← Typing.checkGlobals .initial p.globals
  let scope ← Typing.declareFunctions scope p.functions
  let functions ← Typing.checkFunctions scope p.functions
  let stmts ← Typing.checkStmts scope p.stmts
  pure ⟨functions, globals, stmts⟩

end WatCompiler
