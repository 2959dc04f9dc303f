import WatCompiler.Host
import WatCompiler.Program
import WatCompiler.Wat.Instr
import WatCompiler.Wat.Layout

/-!
# Modules from programs

The module of a checked program. It imports every function of the host, and has a global for each
global variable, a function with one result for each function, and an exported function for the
top-level statements. A name is the current function's parameter or local variable if it declares
one, otherwise the global. Values that nobody wants go to a scratch local.
-/

namespace WatCompiler

namespace Code

/-- Why there is no code for a program. Checked programs have none of these. -/
inductive Fault
  | unsupportedUnary (op : UnaryOp)
  | unsupportedBinary (op : BinaryOp)
  | printArguments (count : Nat)
  | unknownLiteral (kind : Int)
deriving DecidableEq, Repr

/-- The wording of a fault. -/
def Fault.message : Fault → Text
  | unsupportedUnary op => "unsupported unary operator: " ++ op.symbol
  | unsupportedBinary op => "unsupported binary operator: " ++ op.symbol
  | printArguments count => "print takes 1 argument, got " ++ Text.ofNat count
  | unknownLiteral kind => "unrecognized literal kind " ++ Text.ofInt kind

/-- The name of a variable or function in a module. -/
def identifier (name : Text) : Text := "$" ++ name

/-- The local that takes the values that nobody wants. -/
def scratch : Text := "$$scratch"

/-- The label that leaves a loop. -/
def blockLabel (number : Nat) : Text := "$$block_label_" ++ Text.ofNat number

/-- The label that starts a loop again. -/
def loopLabel (number : Nat) : Text := "$$loop_label_" ++ Text.ofNat number

/-! ## Expressions -/

/-- The word that stands for a literal. -/
def literal : Literal → Except Fault Int32
  | .none | .false => .ok 0
  | .true => .ok 1
  | .number value => .ok value
  | .other kind _ => .error (.unknownLiteral kind)

/-- Reads a variable. -/
def get (locals : List Text) (name : Text) : Instr :=
  if name ∈ locals then .localGet (identifier name) else .globalGet (identifier name)

/-- Writes a variable. -/
def set (locals : List Text) (name : Text) : Instr :=
  if name ∈ locals then .localSet (identifier name) else .globalSet (identifier name)

/-- What is done with the operand of a unary operator. -/
def unary : UnaryOp → Except Fault (List Instr)
  | .not => .ok [.const 1, .arith .xor]
  | .negate => .ok [.const (-1), .arith .mul]
  | .plus => .ok []
  | op => .error (.unsupportedUnary op)

/-- The instruction for a binary operator. -/
def binary : BinaryOp → Except Fault ArithOp
  | .add => .ok .add
  | .subtract => .ok .sub
  | .multiply => .ok .mul
  | .divide => .ok .div
  | .remainder => .ok .rem
  | .equal | .is => .ok .eq
  | .notEqual => .ok .ne
  | .greater => .ok .gt
  | .less => .ok .lt
  | .greaterEqual => .ok .ge
  | .lessEqual => .ok .le
  | op => .error (.unsupportedBinary op)

/-- How a value of some type is printed. -/
def printMode : Ty → PrintMode
  | .none => .none
  | .bool => .bool
  | _ => .int

/-- What a call passes besides its arguments: `print` is told how to print. -/
def hidden (function : Text) (args : List (Expr Ty)) : Except Fault (List Instr) :=
  if function = "print" then
    match args with
    | [arg] => .ok [.const (printMode arg.info.ann).code]
    | _ => .error (.printArguments args.length)
  else .ok []

mutual

/-- Code that puts the value of an expression on the stack. -/
def expr (locals : List Text) : Expr Ty → Except Fault (List Instr)
  | .literal _ value => do
    let value ← literal value
    pure [.const value]
  | .ident _ name => .ok [get locals name]
  | .unary _ op arg => do
    let arg ← expr locals arg
    let op ← unary op
    pure (arg ++ op)
  | .binary _ op lhs rhs => do
    let lhs ← expr locals lhs
    let rhs ← expr locals rhs
    let op ← binary op
    pure (lhs ++ rhs ++ [.arith op])
  | .paren _ arg => expr locals arg
  | .call _ function args => do
    let code ← exprs locals args
    let more ← hidden function args
    pure (code ++ more ++ [.call (identifier function)])

/-- Code that puts the values of expressions on the stack, from left to right. -/
def exprs (locals : List Text) : List (Expr Ty) → Except Fault (List Instr)
  | [] => .ok []
  | e :: rest => do
    let first ← expr locals e
    let others ← exprs locals rest
    pure (first ++ others)

end

/-! ## Statements -/

/-- Instructions, each on its line. -/
def lines (code : List Instr) : List Layout := code.map fun i => .line i.form

/-- A structured instruction with its items on lines of their own. -/
def nested (head : List Text) (body : List Layout) : Layout := .block (head.map .symbol) body

mutual

/-- Code for a statement, and the number of the next loop. The first loop in it has the number
`label`. -/
def stmt (locals : List Text) (label : Nat) : Stmt Ty → Except Fault (List Layout × Nat)
  | .assign _ target value => do
    let value ← expr locals value
    pure (lines (value ++ [set locals target]), label)
  | .expr _ value => do
    let value ← expr locals value
    pure (lines (value ++ [.localSet scratch]), label)
  | .ret _ none => .ok (lines [.const 0, .ret], label)
  | .ret _ (some value) => do
    let value ← expr locals value
    pure (lines (value ++ [.ret]), label)
  | .while_ _ test body => do
    let test ← expr locals test
    let (body, next) ← stmts locals (label + 1) body
    let round := lines (test ++ [.const 1, .arith .xor, .brIf (blockLabel label)]) ++ body ++
      lines [.br (loopLabel label)]
    pure ([nested ["block", blockLabel label] [nested ["loop", loopLabel label] round]], next)
  | .cond _ none body _ => stmts locals label body
  | .cond _ (some test) body orElse => do
    let test ← expr locals test
    let (body, label) ← stmts locals label body
    let (orElse, label) ← arm locals label orElse
    pure (lines test ++ [nested ["if"] (nested ["then"] body :: orElse)], label)
  | .pass _ => .ok ([], label)

/-- Code for statements. -/
def stmts (locals : List Text) (label : Nat) : List (Stmt Ty) → Except Fault (List Layout × Nat)
  | [] => .ok ([], label)
  | s :: rest => do
    let (first, label) ← stmt locals label s
    let (others, label) ← stmts locals label rest
    pure (first ++ others, label)

/-- The `else` arm for the next arm of a conditional. -/
def arm (locals : List Text) (label : Nat) : Option (Stmt Ty) → Except Fault (List Layout × Nat)
  | none => .ok ([], label)
  | some next => do
    let (code, label) ← stmt locals label next
    pure ([nested ["else"] code], label)

end

/-! ## Modules -/

/-- A declaration of something with a name and the type of a word. -/
def declaration (kind : String) (name : Text) : Datum :=
  .form [.symbol kind, .symbol name, .symbol "i32"]

/-- The result of a function. -/
def result : Datum := .form [.symbol "result", .symbol "i32"]

/-- The import of a host function. -/
def importField (h : Host) : Layout :=
  .line (.form ([Datum.symbol "func", Datum.symbol (identifier h.name),
      Datum.form [.symbol "import", .string "imports", .string h.name]] ++
    List.replicate h.arity (Datum.form [.symbol "param", .symbol "i32"]) ++ [result]))

/-- The field for a global variable. -/
def globalField (v : VarDef Ty) : Except Fault Layout := do
  let value ← literal v.literal
  pure (.line (.form [.symbol "global", .symbol (identifier v.name),
    .form [.symbol "mut", .symbol "i32"], (Instr.const value).form]))

/-- The fields for global variables. -/
def globalFields : List (VarDef Ty) → Except Fault (List Layout)
  | [] => .ok []
  | v :: rest => do
    let first ← globalField v
    let others ← globalFields rest
    pure (first :: others)

/-- Code that gives local variables their initial values. -/
def initialValues : List (VarDef Ty) → Except Fault (List Instr)
  | [] => .ok []
  | v :: rest => do
    let value ← literal v.literal
    let others ← initialValues rest
    pure (.const value :: .localSet (identifier v.name) :: others)

/-- The declarations of a function's locals. -/
def localFields (names : List Text) : List Layout :=
  (scratch :: names.map identifier).map fun name => .line (declaration "local" name)

/-- The field for a function. What follows its statements returns zero. -/
def functionField (f : FuncDef Ty) : Except Fault Layout := do
  let params := f.params.map Param.name
  let names := f.locals.map VarDef.name
  let init ← initialValues f.locals
  let (body, _) ← stmts (params ++ names) 1 f.stmts
  pure (.block
    ([.symbol "func", .symbol (identifier f.name)] ++
      params.map (fun name => declaration "param" (identifier name)) ++ [result])
    (localFields names ++ lines init ++ body ++ lines [.const 0, .ret]))

/-- The fields for functions. -/
def functionFields : List (FuncDef Ty) → Except Fault (List Layout)
  | [] => .ok []
  | f :: rest => do
    let first ← functionField f
    let others ← functionFields rest
    pure (first :: others)

/-- The field for the top-level statements. -/
def entryField (body : List (Stmt Ty)) : Except Fault Layout := do
  let (code, _) ← stmts [] 1 body
  pure (.block [.symbol "func", .form [.symbol "export", .string "exported_func"]]
    (localFields [] ++ code))

end Code

/-- The module of a program with its layout. -/
def Program.toLayout (p : Program Ty) : Except Code.Fault Layout := do
  let globals ← Code.globalFields p.globals
  let functions ← Code.functionFields p.functions
  let entry ← Code.entryField p.stmts
  pure (.block [.symbol "module"]
    (Host.all.map Code.importField ++ globals ++ functions ++ [entry]))

/-- The text of a program's module. -/
def Program.toWat (p : Program Ty) : Except Code.Fault Text := do
  let layout ← p.toLayout
  pure layout.text

end WatCompiler
