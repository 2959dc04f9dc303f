import WatCompiler.Program
import WatCompiler.Program.Fault

/-!
# Programs from syntax trees

A program is read off the tree of its source. The children of a node are taken from left to right,
and the first fault that is met is the answer. The trees of the grammar never lack a child; of any
other tree `missingChild` and `missingExpression` say that one is absent, without a position.
-/

namespace WatCompiler.Program

namespace Reading

open SyntaxTree (Node)

/-- A source with its line index. -/
structure Source where
  text : Text
  lines : LineIndex
deriving Repr

/-- A text as a source. -/
def Source.ofText (text : Text) : Source := ⟨text, .ofText text⟩

/-- A fault and its place. -/
abbrev Failure := Located Fault

variable (source : Source)

/-- Where a node starts. -/
def posOf (n : Node) : Position := source.lines.position n.start

/-- What a part that was read from a node carries. -/
def infoOf (n : Node) : Info Unit := ⟨(), posOf source n⟩

/-- The text of a node. -/
def textOf (n : Node) : Text := n.text source.text

/-- A fault at a node. -/
def failAt {α : Type} (n : Node) (fault : Fault) : Except Failure α :=
  .error ⟨fault, posOf source n⟩

/-- A fault that has no place. -/
def failNowhere {α : Type} (fault : Fault) : Except Failure α := .error ⟨fault, .unknown⟩

/-- A node that cannot stand where it does. -/
def unexpectedNode {α : Type} (n : Node) : Except Failure α :=
  failAt source n (.unexpected (textOf source n))

/-- No nodes may be left. -/
def finished : List Node → Except Failure Unit
  | [] => .ok ()
  | n :: _ => unexpectedNode source n

/-! ## Literals and types -/

/-- The literal of a number, truth value or `None` node. -/
def literal (n : Node) : Except Failure Literal :=
  match n.kind with
  | .number =>
    match Text.readInt32 (textOf source n) with
    | .ok value => .ok (.number value)
    | .error _ => failAt source n (.numberTooLarge (textOf source n))
  | .boolean => if textOf source n = "True" then .ok .true else .ok .false
  | .none => .ok .none
  | _ => failAt source n (.invalidLiteral (textOf source n))

/-- The type name in an annotation that starts with a given mark, a colon or an arrow. -/
def typeName (mark : Operator) (n : Node) : Except Failure Text :=
  match n.children with
  | [] => failNowhere .missingChild
  | m :: rest =>
    if m.kind ≠ .op mark then unexpectedNode source m
    else
      match rest with
      | [] => failAt source n (.malformedType (textOf source n))
      | name :: rest =>
        if name.kind = .variableName ∨ name.kind = .none then do
          finished source rest
          pure (textOf source name)
        else failAt source n (.malformedType (textOf source n))

/-- The types that variables and parameters can have. -/
def variableType? (name : Text) : Option Ty :=
  if name = "int" then some .int else if name = "bool" then some .bool else none

/-- The types that functions can return. -/
def returnType? (name : Text) : Option Ty :=
  if name = "None" then some .none else variableType? name

/-! ## Expressions -/

/-- Whether a negated node stands for the least number, whose magnitude alone is too large. -/
def isLeastMagnitude (n : Node) : Bool :=
  n.kind = .number ∧ (Text.readInt32 ("-" ++ textOf source n)).toOption = some Int32.minValue

mutual

/-- The expression of a node. -/
def expr : Node → Except Failure (Expr Unit)
  | ⟨kind, start, stop, children⟩ =>
    let n : Node := ⟨kind, start, stop, []⟩
    match kind with
    | .number | .boolean | .none => do
      let value ← literal source n
      pure (.literal (infoOf source n) value)
    | .variableName => .ok (.ident (infoOf source n) (textOf source n))
    | .binaryExpression =>
      match children with
      | [] => failNowhere .missingExpression
      | [lhs] => do
        let _ ← expr lhs
        failNowhere .missingChild
      | lhs :: opNode :: rest => do
        let lhs ← expr lhs
        match BinaryOp.ofSymbol? (textOf source opNode) with
        | none => failAt source opNode (.unsupportedBinary (textOf source opNode))
        | some op =>
          match rest with
          | [] => failNowhere .missingExpression
          | rhs :: rest => do
            let rhs ← expr rhs
            finished source rest
            pure (.binary (infoOf source n) op lhs rhs)
    | .unaryExpression =>
      match children with
      | [] => failNowhere .missingChild
      | opNode :: rest =>
        match UnaryOp.ofSymbol? (textOf source opNode) with
        | none => failAt source opNode (.unsupportedUnary (textOf source opNode))
        | some op =>
          match rest with
          | [] => failNowhere .missingExpression
          | arg :: rest =>
            if op = .negate ∧ isLeastMagnitude source arg then do
              finished source rest
              pure (.literal (infoOf source n) (.number Int32.minValue))
            else do
              let arg ← expr arg
              finished source rest
              pure (.unary (infoOf source n) op arg)
    | .parenthesizedExpression =>
      match children with
      | [] => failNowhere .missingChild
      | paren :: rest =>
        if paren.kind ≠ .op .leftParen then failAt source n .invalidParenthesis
        else
          match rest with
          | [] => failNowhere .missingExpression
          | arg :: rest => do
            let arg ← expr arg
            match rest with
            | [] => failAt source n .invalidParenthesis
            | closing :: rest =>
              if closing.kind ≠ .op .rightParen then failAt source n .invalidParenthesis
              else do
                finished source rest
                pure (.paren (infoOf source n) arg)
    | .callExpression =>
      match children with
      | [] => failNowhere .missingChild
      | callee :: rest =>
        if callee.kind ≠ .variableName then failAt source callee .calleeNotAName
        else
          match rest with
          | [] => failAt source n .invalidCall
          | args :: rest =>
            if args.kind ≠ .argList then failAt source n .invalidCall
            else do
              finished source rest
              let args ← argumentList args
              pure (.call (infoOf source n) (textOf source callee) args)
    | .string => failAt source n .stringExpression
    | .memberExpression => failAt source n .attributeAccess
    | kind => failAt source n (.notAnExpression (textOf source n) kind)

/-- The arguments of an argument list. -/
def argumentList : Node → Except Failure (List (Expr Unit))
  | ⟨kind, start, stop, children⟩ =>
    let n : Node := ⟨kind, start, stop, []⟩
    match children with
    | [] => failAt source n .invalidArgumentList
    | paren :: rest =>
      if paren.kind ≠ .op .leftParen then failAt source n .invalidArgumentList
      else
        match rest with
        | [] => failNowhere .missingExpression
        | first :: others =>
          if first.kind = .op .rightParen then do
            finished source others
            pure []
          else arguments n (first :: others)

/-- The arguments up to the closing parenthesis of the argument list `list`. -/
def arguments (list : Node) : List Node → Except Failure (List (Expr Unit))
  | [] => failNowhere .missingExpression
  | [arg] => do
    let _ ← expr arg
    failAt source list .invalidArgumentList
  | arg :: separator :: rest => do
    let arg ← expr arg
    if separator.kind = .op .rightParen then
      finished source rest
      pure [arg]
    else if separator.kind = .op .comma then
      if rest.head?.all fun next => next.kind = .op .rightParen then
        failAt source separator .trailingCommaInArguments
      else
        let others ← arguments list rest
        pure (arg :: others)
    else failAt source separator (.unexpectedInArguments (textOf source separator))

end

/-! ## Definitions of variables -/

/-- Whether an assignment node defines its target. -/
def isDefinition (n : Node) : Except Failure Bool :=
  match n.children with
  | _ :: second :: _ =>
    match second.kind with
    | .typeDef => .ok true
    | .assignOp => .ok false
    | _ => failAt source second .invalidAssignment
  | _ => failAt source n .invalidAssignment

/-- The variable that an assignment node defines. -/
def varDef (n : Node) : Except Failure (VarDef Unit) :=
  match n.children with
  | target :: typeNode :: rest =>
    if target.kind ≠ .variableName then failAt source target (.notADefinable (textOf source target))
    else do
      let name := textOf source target
      let type ← typeName source .colon typeNode
      match rest with
      | [] => failAt source n (.uninitialized name)
      | op :: rest =>
        if op.kind ≠ .assignOp then unexpectedNode source op
        else
          match rest with
          | [] => failAt source op (.uninitialized name)
          | init :: rest => do
            let value ← literal source init
            finished source rest
            match variableType? type with
            | none => failAt source n (.invalidVariableType type name)
            | some type => pure ⟨infoOf source n, name, type, infoOf source init, value⟩
  | _ => failNowhere .missingChild

/-! ## Statements -/

/-- The statement of an assignment node that is not a definition. -/
def assignment (n : Node) : Except Failure (Stmt Unit) :=
  match n.children with
  | [] => failNowhere .missingChild
  | target :: rest =>
    if target.kind ≠ .variableName then failAt source target (.notAssignable (textOf source target))
    else
      match rest.drop 1 with
      | [] => failAt source n .missingValue
      | value :: rest => do
        let value ← expr source value
        finished source rest
        pure (.assign (infoOf source n) (textOf source target) value)

mutual

/-- The statement of a node. -/
def stmt : Node → Except Failure (Stmt Unit)
  | ⟨kind, start, stop, children⟩ =>
    let n : Node := ⟨kind, start, stop, []⟩
    match kind with
    | .assignStatement => do
      let whole : Node := ⟨kind, start, stop, children⟩
      if ← isDefinition source whole then
        failAt source n
          (.misplacedDefinition ((children.head?.map (textOf source)).getD []))
      else assignment source whole
    | .expressionStatement =>
      match children with
      | [] => failNowhere .missingExpression
      | value :: rest => do
        let value ← expr source value
        finished source rest
        pure (.expr (infoOf source n) value)
    | .returnStatement =>
      match children.drop 1 with
      | [] => .ok (.ret (infoOf source n) none)
      | value :: rest => do
        let value ← expr source value
        finished source rest
        pure (.ret (infoOf source n) (some value))
    | .whileStatement =>
      match children with
      | _ :: test :: rest =>
        if test.kind = .body then failAt source n .whileWithoutCondition
        else do
          let test ← expr source test
          match rest with
          | [] => failAt source n .whileWithoutBody
          | body :: rest =>
            if body.kind ≠ .body then failAt source n .whileWithoutBody
            else do
              let body ← block body
              finished source rest
              pure (.while_ (infoOf source n) test body)
      | _ => failAt source n .whileWithoutCondition
    | .ifStatement => arms children
    | .passStatement => .ok (.pass (infoOf source n))
    | .functionDefinition => failAt source n .misplacedFunction
    | _ => failAt source n (.unsupportedStatement (textOf source n))

/-- The statements of a list of nodes. -/
def stmtList : List Node → Except Failure (List (Stmt Unit))
  | [] => .ok []
  | n :: rest => do
    let first ← stmt n
    let others ← stmtList rest
    pure (first :: others)

/-- The statements of the body of a loop or a conditional; there is at least one. -/
def block : Node → Except Failure (List (Stmt Unit))
  | ⟨kind, start, stop, children⟩ =>
    let n : Node := ⟨kind, start, stop, []⟩
    match children with
    | [] => failAt source n .invalidBlock
    | colon :: rest =>
      if colon.kind ≠ .op .colon then failAt source n .invalidBlock
      else do
        let body ← stmtList rest
        if body.isEmpty then failAt source n .emptyBlock else pure body

/-- The arms of a conditional, each of them what is done if those before it were not chosen. -/
def arms : List Node → Except Failure (Stmt Unit)
  | [] => failNowhere .missingChild
  | word :: rest =>
    if word.kind = .keyword .else_ then
      match rest with
      | [] => failAt source word .elseWithoutBody
      | body :: rest =>
        if body.kind ≠ .body then failAt source word .elseWithoutBody
        else do
          let body ← block body
          match rest with
          | [] => pure (.cond (infoOf source word) none body none)
          | next :: _ => failAt source next .armAfterElse
    else if word.kind = .keyword .if_ ∨ word.kind = .keyword .elif then
      match rest with
      | [] => failAt source word (.armWithoutCondition word.kind.name)
      | test :: rest =>
        if test.kind = .body then failAt source word (.armWithoutCondition word.kind.name)
        else do
          let test ← expr source test
          match rest with
          | [] => failAt source word .armWithoutBody
          | body :: rest =>
            if body.kind ≠ .body then failAt source word .armWithoutBody
            else do
              let body ← block body
              match rest with
              | [] => pure (.cond (infoOf source word) (some test) body none)
              | next :: others => do
                let orElse ← arms (next :: others)
                pure (.cond (infoOf source word) (some test) body (some orElse))
    else unexpectedNode source word

end

/-! ## Functions -/

/-- The parameters up to the closing parenthesis of the parameter list `list`. -/
def paramsUpToParen (list : Node) : List Node → Except Failure (List (Param Unit))
  | [] => failAt source list .invalidParameterList
  | p :: rest =>
    if p.kind = .op .rightParen then do
      finished source rest
      pure []
    else if p.kind ≠ .variableName then failAt source p (.invalidParameter (textOf source p))
    else
      let name := textOf source p
      match rest with
      | [] => failAt source p (.untypedParameter name)
      | typeNode :: rest =>
        if typeNode.kind ≠ .typeDef then failAt source p (.untypedParameter name)
        else do
          let typeText ← typeName source .colon typeNode
          match variableType? typeText with
          | none => failAt source typeNode (.invalidParameterType typeText name)
          | some type =>
            let param : Param Unit := ⟨infoOf source p, name, type⟩
            match rest with
            | [] => failAt source list .invalidParameterList
            | separator :: rest =>
              if separator.kind = .op .rightParen then do
                finished source rest
                pure [param]
              else if separator.kind ≠ .op .comma then
                failAt source separator (.unexpectedInParameters (textOf source separator))
              else if rest.head?.all fun next => next.kind = .op .rightParen then
                failAt source separator .trailingCommaInParameters
              else do
                let others ← paramsUpToParen list rest
                pure (param :: others)

/-- The parameters of a parameter list. -/
def params (n : Node) : Except Failure (List (Param Unit)) :=
  match n.children with
  | [] => failAt source n .invalidParameterList
  | paren :: rest =>
    if paren.kind ≠ .op .leftParen then failAt source n .invalidParameterList
    else paramsUpToParen source n rest

/-- Local definitions and then statements. Once a statement was met, `defining` is false. -/
def bodyItems (defining : Bool) :
    List Node → Except Failure (List (VarDef Unit) × List (Stmt Unit))
  | [] => .ok ([], [])
  | n :: rest => do
    let defines ← if n.kind = .assignStatement then isDefinition source n else pure false
    if defines then
      if defining then
        let first ← varDef source n
        let (defs, stmts) ← bodyItems true rest
        pure (first :: defs, stmts)
      else failAt source n .definitionInsideBody
    else
      let first ← stmt source n
      let (defs, stmts) ← bodyItems false rest
      pure (defs, first :: stmts)

/-- The local definitions and statements of a function's body, which may be empty. -/
def funcBody (n : Node) : Except Failure (List (VarDef Unit) × List (Stmt Unit)) :=
  match n.children with
  | [] => failAt source n .invalidFunctionBody
  | colon :: rest =>
    if colon.kind ≠ .op .colon then failAt source n .invalidFunctionBody
    else bodyItems source true rest

/-- What a function returns, and the nodes after the annotation that says so. Without one it returns
`None`. -/
def returns (function : Text) : List Node → Except Failure (Ty × List Node)
  | [] => .ok (.none, [])
  | n :: rest =>
    if n.kind = .typeDef then do
      let name ← typeName source .arrow n
      match returnType? name with
      | some type => pure (type, rest)
      | none => failAt source n (.invalidReturnType name function)
    else .ok (.none, n :: rest)

/-- The function of a definition node. -/
def funcDef (n : Node) : Except Failure (FuncDef Unit) :=
  match n.children with
  | [] => failNowhere .missingChild
  | word :: rest =>
    if word.kind ≠ .keyword .def_ then unexpectedNode source word
    else
      match rest with
      | [] => failAt source n .invalidFunctionDefinition
      | nameNode :: rest =>
        if nameNode.kind ≠ .variableName then failAt source n .invalidFunctionDefinition
        else
          let name := textOf source nameNode
          match rest with
          | [] => failAt source n (.missingParameterList name)
          | list :: rest =>
            if list.kind ≠ .paramList then failAt source n (.missingParameterList name)
            else do
              let params ← params source list
              let (type, rest) ← returns source name rest
              match rest with
              | [] => failAt source n (.missingFunctionBody name)
              | bodyNode :: rest =>
                if bodyNode.kind ≠ .body then failAt source n (.missingFunctionBody name)
                else do
                  let (locals, stmts) ← funcBody source bodyNode
                  finished source rest
                  pure ⟨posOf source n, name, params, type, infoOf source bodyNode, locals, stmts⟩

/-! ## Programs -/

/-- Definitions and then statements. Once a statement was met, `defining` is false. -/
def items (defining : Bool) : List Node → Except Failure (Program Unit)
  | [] => .ok ⟨[], [], []⟩
  | n :: rest => do
    let defines ←
      if n.kind = .assignStatement then isDefinition source n
      else pure (n.kind = .functionDefinition)
    if defines then
      if defining then
        if n.kind = .functionDefinition then
          let first ← funcDef source n
          let others ← items true rest
          pure { others with functions := first :: others.functions }
        else
          let first ← varDef source n
          let others ← items true rest
          pure { others with globals := first :: others.globals }
      else failAt source n .definitionAfterStatement
    else
      let first ← stmt source n
      let others ← items false rest
      pure { others with stmts := first :: others.stmts }

end Reading

/-- The program of a syntax tree. -/
def ofTree (text : Text) (tree : SyntaxTree.Node) : Except (Located Fault) (Program Unit) :=
  let source := Reading.Source.ofText text
  if tree.kind ≠ .script then Reading.failAt source tree (.notAScript tree.kind)
  else Reading.items source true tree.children

end WatCompiler.Program
