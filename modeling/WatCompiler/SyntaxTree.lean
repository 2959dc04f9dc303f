import WatCompiler.Text.Quoted
import WatCompiler.Token

/-!
# Syntax trees

A syntax tree shows the grammatical structure of a source. Its leaves are tokens, and a node takes
the bytes from its first child to its last. Keywords and punctuation are leaves whose kind is their
own spelling. The grammar covers more than the compiled language.
-/

namespace WatCompiler.SyntaxTree

/-- The kinds of nodes. -/
inductive Kind
  | script | body | assignStatement | typeDef | assignOp | expressionStatement | returnStatement
  | passStatement | breakStatement | continueStatement | whileStatement | ifStatement
  | forStatement | functionDefinition | paramList | argList | callExpression | memberExpression
  | binaryExpression | unaryExpression | parenthesizedExpression | variableName | propertyName
  | number | string | boolean | none | arithOp | compareOp | bitOp
  /-- A keyword or a punctuation mark with its spelling. -/
  | lexeme (spelling : Text)
deriving DecidableEq, Repr

namespace Kind

/-- The name of a kind. -/
def name : Kind → Text
  | script => "Script"
  | body => "Body"
  | assignStatement => "AssignStatement"
  | typeDef => "TypeDef"
  | assignOp => "AssignOp"
  | expressionStatement => "ExpressionStatement"
  | returnStatement => "ReturnStatement"
  | passStatement => "PassStatement"
  | breakStatement => "BreakStatement"
  | continueStatement => "ContinueStatement"
  | whileStatement => "WhileStatement"
  | ifStatement => "IfStatement"
  | forStatement => "ForStatement"
  | functionDefinition => "FunctionDefinition"
  | paramList => "ParamList"
  | argList => "ArgList"
  | callExpression => "CallExpression"
  | memberExpression => "MemberExpression"
  | binaryExpression => "BinaryExpression"
  | unaryExpression => "UnaryExpression"
  | parenthesizedExpression => "ParenthesizedExpression"
  | variableName => "VariableName"
  | propertyName => "PropertyName"
  | number => "Number"
  | string => "String"
  | boolean => "Boolean"
  | none => "None"
  | arithOp => "ArithOp"
  | compareOp => "CompareOp"
  | bitOp => "BitOp"
  | lexeme spelling => spelling

/-- The kinds with a name of their own. -/
def named : List Kind :=
  [script, body, assignStatement, typeDef, assignOp, expressionStatement, returnStatement,
    passStatement, breakStatement, continueStatement, whileStatement, ifStatement, forStatement,
    functionDefinition, paramList, argList, callExpression, memberExpression, binaryExpression,
    unaryExpression, parenthesizedExpression, variableName, propertyName, number, string, boolean,
    none, arithOp, compareOp, bitOp]

/-- The kind with a given name. -/
def ofName (t : Text) : Kind := (named.find? fun k => k.name == t).getD (lexeme t)

/-- The kind of a keyword leaf. -/
def keyword (k : Keyword) : Kind := lexeme k.text

/-- The kind of an operator or delimiter leaf. -/
def op (o : Operator) : Kind := lexeme o.text

end Kind

/-- A node: its kind, the bytes from `start` up to `stop` that it takes, and its children. -/
structure Node where
  kind : Kind
  start : Nat
  stop : Nat
  children : List Node
deriving Repr

namespace Node

/-- The text of a node. -/
def text (n : Node) (source : Text) : Text := source.slice n.start n.stop

/-- A leaf that takes the bytes of a token. -/
def leaf (kind : Kind) (t : Token) : Node := ⟨kind, t.start, t.stop, []⟩

/-- An inner node that takes the bytes from its first child to its last. -/
def branch (kind : Kind) (first : Node) (rest : List Node) : Node :=
  ⟨kind, first.start, (rest.getLastD first).stop, first :: rest⟩

mutual

/-- The tree in parentheses: leaves with their text, inner nodes with their children. -/
def render (source : Text) : Node → Text
  | ⟨kind, start, stop, children⟩ =>
    if children.isEmpty then
      let text := source.slice start stop
      if kind.name = text then Text.quote kind.name
      else "(" ++ kind.name ++ " " ++ Text.quote text ++ ")"
    else "(" ++ kind.name ++ renderAll source children ++ ")"

/-- The trees of some nodes, each after a space. -/
def renderAll (source : Text) : List Node → Text
  | [] => []
  | n :: rest => " " ++ render source n ++ renderAll source rest

end

end Node

end WatCompiler.SyntaxTree
