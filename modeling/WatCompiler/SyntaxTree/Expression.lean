import WatCompiler.SyntaxTree
import WatCompiler.SyntaxTree.Fault

/-!
# The grammar of expressions

Expressions by precedence climbing: an operand, then as many operators as bind at least as tightly
as the level asked for, each with a right operand of a tighter level (of the same level for the
right-associative power operator). Every rule takes the tokens that are left and a bound on the
depth of the rules below it; the number of tokens bounds that depth.
-/

namespace WatCompiler.SyntaxTree

/-! ## Binding levels, the loosest first -/

namespace Level

def or : Nat := 1
def and : Nat := 2
def not : Nat := 3
def compare : Nat := 4
def bitOr : Nat := 5
def bitXor : Nat := 6
def bitAnd : Nat := 7
def shift : Nat := 8
def sum : Nat := 9
def product : Nat := 10
def unary : Nat := 11
def power : Nat := 12

/-- The level of a binary operator. -/
def ofBinary? : Token.Kind → Option Nat
  | .keyword .or => some or
  | .keyword .and => some and
  | .keyword .is => some compare
  | .op .equal | .op .notEqual | .op .less | .op .greater | .op .lessEqual
  | .op .greaterEqual => some compare
  | .op .bar => some bitOr
  | .op .caret => some bitXor
  | .op .ampersand => some bitAnd
  | .op .shiftLeft | .op .shiftRight => some shift
  | .op .plus | .op .minus => some sum
  | .op .times | .op .divide | .op .floorDivide | .op .modulo => some product
  | .op .power => some power
  | _ => none

/-- The level of the operand of a prefixed operator. -/
def ofUnary? : Token.Kind → Option Nat
  | .keyword .not => some not
  | .op .minus | .op .plus | .op .tilde => some unary
  | _ => none

/-- The level of the right operand of a binary operator of a given level. -/
def rightOf (kind : Token.Kind) (level : Nat) : Nat :=
  if kind = .op .power then level else level + 1

end Level

/-- The kind of an operator's leaf. -/
def operatorKind : Token.Kind → Kind
  | .keyword k => .keyword k
  | .op .equal | .op .notEqual | .op .less | .op .greater | .op .lessEqual
  | .op .greaterEqual => .compareOp
  | .op .bar | .op .caret | .op .ampersand | .op .shiftLeft | .op .shiftRight
  | .op .tilde => .bitOp
  | _ => .arithOp

/-- The kind of an operand that is a single token. -/
def operandKind? : Token.Kind → Option Kind
  | .int => some .number
  | .string => some .string
  | .ident => some .variableName
  | .keyword .true | .keyword .false => some .boolean
  | .keyword .none => some .none
  | _ => none

mutual

/-- An expression whose operators bind at `level` or tighter. -/
def expressionAt (bound level : Nat) (ts : List Token) : Except Failure (WithRest Node) :=
  match bound with
  | 0 => fail ts .nestedTooDeeply
  | bound + 1 => do
    let (left, ts) ← unary bound ts
    operators bound level left ts

/-- The operators after a left operand. -/
def operators (bound level : Nat) (left : Node) (ts : List Token) :
    Except Failure (WithRest Node) :=
  match bound with
  | 0 => fail ts .nestedTooDeeply
  | bound + 1 =>
    match ts with
    | [] => .ok (left, ts)
    | t :: after =>
      match Level.ofBinary? t.kind with
      | none => .ok (left, ts)
      | some found =>
        if found < level then .ok (left, ts)
        else do
          let (right, ts) ← expressionAt bound (Level.rightOf t.kind found) after
          let both := .branch .binaryExpression left [.leaf (operatorKind t.kind) t, right]
          operators bound level both ts

/-- An operand, with the operators before it. -/
def unary (bound : Nat) (ts : List Token) : Except Failure (WithRest Node) :=
  match bound with
  | 0 => fail ts .nestedTooDeeply
  | bound + 1 =>
    match ts with
    | [] => unexpected ts
    | t :: after =>
      match Level.ofUnary? t.kind with
      | some level => do
        let (operand, ts) ← expressionAt bound level after
        pure (.branch .unaryExpression (.leaf (operatorKind t.kind) t) [operand], ts)
      | none => do
        let (operand, ts) ← primary bound ts
        suffixes bound operand ts

/-- The calls and attribute accesses after an operand. -/
def suffixes (bound : Nat) (operand : Node) (ts : List Token) : Except Failure (WithRest Node) :=
  match bound with
  | 0 => fail ts .nestedTooDeeply
  | bound + 1 =>
    match ts with
    | [] => .ok (operand, ts)
    | t :: after =>
      if t.kind = .op .leftParen then do
        let (arguments, ts) ← arguments bound after
        let list := .branch .argList (.leaf (.op .leftParen) t) arguments
        suffixes bound (.branch .callExpression operand [list]) ts
      else if t.kind = .op .dot then
        match after with
        | [] => fail after .attributeNameExpected
        | name :: ts =>
          if name.kind = .ident then
            suffixes bound
              (.branch .memberExpression operand [.leaf (.op .dot) t, .leaf .propertyName name]) ts
          else fail after .attributeNameExpected
      else .ok (operand, ts)

/-- The arguments of a call after its opening parenthesis, the closing one included. -/
def arguments (bound : Nat) (ts : List Token) : Except Failure (WithRest (List Node)) :=
  match bound with
  | 0 => fail ts .nestedTooDeeply
  | bound + 1 =>
    match ts with
    | [] => unexpected ts
    | t :: after =>
      if t.kind = .op .rightParen then .ok ([.leaf (.op .rightParen) t], after)
      else do
        let (value, ts) ← expressionAt bound Level.or ts
        let (named, ts) ← assigned bound ts
        match ts with
        | [] => fail ts .argumentSeparatorExpected
        | s :: after =>
          if s.kind = .op .comma then do
            let (more, ts) ← arguments bound after
            pure (value :: named ++ .leaf (.op .comma) s :: more, ts)
          else if s.kind = .op .rightParen then do
            let (more, ts) ← arguments bound ts
            pure (value :: named ++ more, ts)
          else fail ts .argumentSeparatorExpected

/-- An equals sign and a value, or nothing. -/
def assigned (bound : Nat) (ts : List Token) : Except Failure (WithRest (List Node)) :=
  match bound with
  | 0 => fail ts .nestedTooDeeply
  | bound + 1 =>
    match ts with
    | [] => .ok ([], ts)
    | t :: after =>
      if t.kind = .op .assign then do
        let (value, ts) ← expressionAt bound Level.or after
        pure ([.leaf .assignOp t, value], ts)
      else .ok ([], ts)

/-- A literal, a name or an expression in parentheses. -/
def primary (bound : Nat) (ts : List Token) : Except Failure (WithRest Node) :=
  match bound with
  | 0 => fail ts .nestedTooDeeply
  | bound + 1 =>
    match ts with
    | [] => unexpected ts
    | t :: after =>
      match operandKind? t.kind with
      | some kind => .ok (.leaf kind t, after)
      | none =>
        if t.kind = .op .leftParen then do
          let (inner, ts) ← expressionAt bound Level.or after
          match ts with
          | [] => fail ts .closingParenExpected
          | close :: after =>
            if close.kind = .op .rightParen then
              pure (.branch .parenthesizedExpression (.leaf (.op .leftParen) t)
                [inner, .leaf (.op .rightParen) close], after)
            else fail ts .closingParenExpected
        else unexpected ts

end

/-- The depth that suffices for the rules on a list of tokens. -/
def depthBound (ts : List Token) : Nat := 6 * ts.length + 6

/-- An expression. -/
def expression (ts : List Token) : Except Failure (WithRest Node) :=
  expressionAt (depthBound ts) Level.or ts

end WatCompiler.SyntaxTree
