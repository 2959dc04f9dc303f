import WatCompiler.Position

/-!
# Programs

The abstract syntax of the compiled language. Every expression, statement, definition, parameter
and function body carries a position and an annotation: nothing before type checking, afterwards
the type of an expression, or the type that a statement is sure to return.
-/

namespace WatCompiler

/-- Static types. -/
inductive Ty
  | int
  | bool
  | none
  /-- Any type at all; only a parameter of a built-in function has it. -/
  | any
  /-- A type that the language does not have. -/
  | other (name : Text)
deriving DecidableEq, Repr

namespace Ty

/-- The name of a type. -/
def name : Ty → Text
  | int => "int"
  | bool => "bool"
  | none => "none"
  | any => "any"
  | other name => name

/-- The type with a given name. -/
def ofName (t : Text) : Ty :=
  ([int, bool, none, any].find? fun type => type.name == t).getD (other t)

end Ty

/-- Operators with one operand. -/
inductive UnaryOp
  | not
  | negate
  | plus
  /-- An operator that the language does not have. -/
  | other (symbol : Text)
deriving DecidableEq, Repr

namespace UnaryOp

/-- The spelling of an operator. -/
def symbol : UnaryOp → Text
  | not => "not"
  | negate => "-"
  | plus => "+"
  | other symbol => symbol

/-- The operators of the language. -/
def all : List UnaryOp := [not, negate, plus]

/-- The operator of the language with a given spelling. -/
def ofSymbol? (t : Text) : Option UnaryOp := all.find? fun op => op.symbol == t

/-- The operator with a given spelling. -/
def ofSymbol (t : Text) : UnaryOp := (ofSymbol? t).getD (other t)

end UnaryOp

/-- Operators with two operands. -/
inductive BinaryOp
  | add | subtract | multiply | remainder | divide
  | equal | notEqual | lessEqual | greaterEqual | less | greater | is
  /-- An operator that the language does not have. -/
  | other (symbol : Text)
deriving DecidableEq, Repr

namespace BinaryOp

/-- The spelling of an operator. -/
def symbol : BinaryOp → Text
  | add => "+"
  | subtract => "-"
  | multiply => "*"
  | remainder => "%"
  | divide => "//"
  | equal => "=="
  | notEqual => "!="
  | lessEqual => "<="
  | greaterEqual => ">="
  | less => "<"
  | greater => ">"
  | is => "is"
  | other symbol => symbol

/-- The operators of the language. -/
def all : List BinaryOp :=
  [add, subtract, multiply, remainder, divide, equal, notEqual, lessEqual, greaterEqual, less,
    greater, is]

/-- The operator of the language with a given spelling. -/
def ofSymbol? (t : Text) : Option BinaryOp := all.find? fun op => op.symbol == t

/-- The operator with a given spelling. -/
def ofSymbol (t : Text) : BinaryOp := (ofSymbol? t).getD (other t)

end BinaryOp

/-- Literals. -/
inductive Literal
  | none
  | true
  | false
  | number (value : Int32)
  /-- A literal of a kind that the language does not have, known by number, with a value. -/
  | other (kind : Int) (value : Int32)
deriving DecidableEq, Repr

/-- The spelling of a literal. -/
def Literal.text : Literal → Text
  | none => "None"
  | true => "True"
  | false => "False"
  | number value | other _ value => Text.ofInt value.toInt

/-- What every part of a program carries. -/
structure Info (α : Type) where
  ann : α
  pos : Position
deriving DecidableEq, Repr

/-- Expressions. -/
inductive Expr (α : Type)
  | literal (info : Info α) (value : Literal)
  | ident (info : Info α) (name : Text)
  | unary (info : Info α) (op : UnaryOp) (arg : Expr α)
  | binary (info : Info α) (op : BinaryOp) (lhs rhs : Expr α)
  | paren (info : Info α) (arg : Expr α)
  | call (info : Info α) (function : Text) (args : List (Expr α))
deriving Repr

/-- The position and annotation of an expression. -/
def Expr.info {α : Type} : Expr α → Info α
  | literal info _ | ident info _ | unary info _ _ | binary info _ _ _ | paren info _
  | call info _ _ => info

/-- Statements. -/
inductive Stmt (α : Type)
  | assign (info : Info α) (target : Text) (value : Expr α)
  | expr (info : Info α) (value : Expr α)
  | ret (info : Info α) (value : Option (Expr α))
  | while_ (info : Info α) (test : Expr α) (body : List (Stmt α))
  /-- One arm of a conditional. The arm of a final `else` has no test; what is done instead of
  `body` is the next arm. -/
  | cond (info : Info α) (test : Option (Expr α)) (body : List (Stmt α))
      (orElse : Option (Stmt α))
  | pass (info : Info α)
deriving Repr

/-- The position and annotation of a statement. -/
def Stmt.info {α : Type} : Stmt α → Info α
  | assign info _ _ | expr info _ | ret info _ | while_ info _ _ | cond info _ _ _ | pass info =>
    info

/-- The definition of a variable with its initial value. -/
structure VarDef (α : Type) where
  info : Info α
  name : Text
  type : Ty
  literalInfo : Info α
  literal : Literal
deriving Repr

/-- A parameter of a function. -/
structure Param (α : Type) where
  info : Info α
  name : Text
  type : Ty
deriving Repr

/-- The definition of a function. Its body is the local definitions and then the statements. -/
structure FuncDef (α : Type) where
  pos : Position
  name : Text
  params : List (Param α)
  returns : Ty
  bodyInfo : Info α
  locals : List (VarDef α)
  stmts : List (Stmt α)
deriving Repr

/-- A program: functions, global variables and top-level statements. -/
structure Program (α : Type) where
  functions : List (FuncDef α)
  globals : List (VarDef α)
  stmts : List (Stmt α)
deriving Repr

end WatCompiler
