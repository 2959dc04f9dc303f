import WatCompiler.Token.Lexer

/-!
# Grammar faults

Why a source has no syntax tree. A fault of the tokens is one of them.
-/

namespace WatCompiler.SyntaxTree

/-- How messages name a token: by its spelling, unless it stands for line structure. -/
def describe (t : Token) : Text :=
  match t.kind with
  | .endOfInput => "end of input"
  | .newline => "end of line"
  | .indent => "indent"
  | .dedent => "dedent"
  | _ => Text.quote t.text

/-- Why a source has no syntax tree. The last reason is none that a source can have: the depth to
which rules may be nested always suffices. -/
inductive Fault
  | lexical (fault : Token.Fault)
  | unexpected (found : Token)
  | unsupportedStatement (word : Text)
  | functionNameExpected
  | parameterListExpected
  | parameterNameExpected
  | parameterSeparatorExpected
  | bodyExpected
  | blockExpected
  | inExpected
  | attributeNameExpected
  | argumentSeparatorExpected
  | closingParenExpected
  | nestedTooDeeply
deriving DecidableEq, Repr

/-- The wording of a fault. -/
def Fault.message : Fault → Text
  | lexical fault => fault.message
  | unexpected found => "unexpected " ++ describe found
  | unsupportedStatement word => "unsupported statement " ++ Text.quote word
  | functionNameExpected => "expected function name"
  | parameterListExpected => "expected '(' after function name"
  | parameterNameExpected => "expected parameter name"
  | parameterSeparatorExpected => "expected ',' or ')' in parameter list"
  | bodyExpected => "expected ':'"
  | blockExpected => "expected an indented block"
  | inExpected => "expected 'in' in for statement"
  | attributeNameExpected => "expected attribute name after '.'"
  | argumentSeparatorExpected => "expected ',' or ')' in argument list"
  | closingParenExpected => "expected ')'"
  | nestedTooDeeply => "nested too deeply"

/-- A fault at the byte with a given offset. -/
structure Failure where
  fault : Fault
  offset : Nat
deriving DecidableEq, Repr

/-- What a grammar rule finds at the start of a list of tokens, and the tokens after it. -/
abbrev WithRest (α : Type) := α × List Token

/-- Stops at the current token. -/
def fail {α : Type} (ts : List Token) (fault : Fault) : Except Failure α :=
  .error ⟨fault, (ts.head?.map Token.start).getD 0⟩

/-- The current token cannot stand here. Behind all tokens that is the end of input. -/
def Fault.ofTokens (ts : List Token) : Fault :=
  .unexpected (ts.headD ⟨.endOfInput, [], 0, 0⟩)

/-- Stops at the current token, which cannot stand here. -/
def unexpected {α : Type} (ts : List Token) : Except Failure α := fail ts (.ofTokens ts)

/-- Whether the current token is of a kind. -/
def isAt (ts : List Token) (kind : Token.Kind) : Bool :=
  match ts with
  | t :: _ => t.kind = kind
  | [] => false

end WatCompiler.SyntaxTree
