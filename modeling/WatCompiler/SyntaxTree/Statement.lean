import WatCompiler.SyntaxTree.Expression

/-!
# The grammar of statements

Statements end with a line, compound statements have bodies: a colon and then either one simple
statement on the same line or an indented block. The tree of a source has one child for each of its
top-level statements.
-/

namespace WatCompiler.SyntaxTree

/-- A leaf for the current token, which has to be of a given kind. -/
def expect (ts : List Token) (kind : Token.Kind) (leafKind : Kind) (otherwise : Fault) :
    Except Failure (WithRest Node) :=
  match ts with
  | [] => fail ts otherwise
  | t :: after => if t.kind = kind then .ok (.leaf leafKind t, after) else fail ts otherwise

/-- The end of a line. -/
def endOfLine (ts : List Token) : Except Failure (List Token) :=
  match ts with
  | [] => unexpected ts
  | t :: after => if t.kind = .newline then .ok after else unexpected ts

/-- A type behind its mark `mark`, a colon or an arrow. -/
def typeDef (mark : Operator) (ts : List Token) : Except Failure (WithRest Node) := do
  let (leaf, ts) ← expect ts (.op mark) (.op mark) (.ofTokens ts)
  let (type, ts) ← expression ts
  pure (.branch .typeDef leaf [type], ts)

/-- Equals signs, each with the expression after it. -/
def assignments (bound : Nat) (ts : List Token) : Except Failure (WithRest (List Node)) :=
  match bound with
  | 0 => fail ts .nestedTooDeeply
  | bound + 1 =>
    match ts with
    | [] => .ok ([], ts)
    | t :: after =>
      if t.kind = .op .assign then do
        let (value, ts) ← expression after
        let (more, ts) ← assignments bound ts
        pure (.leaf .assignOp t :: value :: more, ts)
      else .ok ([], ts)

/-- An expression, a definition or an assignment. -/
def expressionOrAssignment (ts : List Token) : Except Failure (WithRest Node) := do
  let (target, ts) ← expression ts
  if isAt ts (.op .colon) then
    let (type, ts) ← typeDef .colon ts
    let (value, ts) ← assigned (depthBound ts) ts
    pure (.branch .assignStatement target (type :: value), ts)
  else if isAt ts (.op .assign) then
    let (values, ts) ← assignments (ts.length + 1) ts
    pure (.branch .assignStatement target values, ts)
  else
    pure (.branch .expressionStatement target [], ts)

/-- A statement without a body, up to the end of its line. -/
def simple (ts : List Token) : Except Failure (WithRest Node) :=
  match ts with
  | [] => unexpected ts
  | t :: after =>
    match t.kind with
    | .keyword .return_ => do
      let leaf := .leaf (.keyword .return_) t
      if isAt after .newline then pure (.branch .returnStatement leaf [], after)
      else
        let (value, ts) ← expression after
        pure (.branch .returnStatement leaf [value], ts)
    | .keyword .pass => .ok (.branch .passStatement (.leaf (.keyword .pass) t) [], after)
    | .keyword .break_ => .ok (.branch .breakStatement (.leaf (.keyword .break_) t) [], after)
    | .keyword .continue_ =>
      .ok (.branch .continueStatement (.leaf (.keyword .continue_) t) [], after)
    | .keyword .not | .keyword .true | .keyword .false | .keyword .none =>
      expressionOrAssignment ts
    | .keyword k => fail ts (.unsupportedStatement k.text)
    | _ => expressionOrAssignment ts

/-- A statement without a body and the end of its line. -/
def simpleStatement (ts : List Token) : Except Failure (WithRest Node) := do
  let (statement, ts) ← simple ts
  let ts ← endOfLine ts
  pure (statement, ts)

/-- The parameters of a function after the opening parenthesis, the closing one included. -/
def parameters (bound : Nat) (ts : List Token) : Except Failure (WithRest (List Node)) :=
  match bound with
  | 0 => fail ts .nestedTooDeeply
  | bound + 1 =>
    match ts with
    | [] => fail ts .parameterNameExpected
    | t :: after =>
      if t.kind = .op .rightParen then .ok ([.leaf (.op .rightParen) t], after)
      else if t.kind = .ident then do
        let (type, ts) ← optionalType after
        let (value, ts) ← assigned (depthBound ts) ts
        match ts with
        | [] => fail ts .parameterSeparatorExpected
        | s :: after =>
          if s.kind = .op .comma then do
            let (more, ts) ← parameters bound after
            pure (.leaf .variableName t :: type ++ value ++ .leaf (.op .comma) s :: more, ts)
          else if s.kind = .op .rightParen then do
            let (more, ts) ← parameters bound ts
            pure (.leaf .variableName t :: type ++ value ++ more, ts)
          else fail ts .parameterSeparatorExpected
      else fail ts .parameterNameExpected
where
  /-- The type of a parameter, if it has one. -/
  optionalType (ts : List Token) : Except Failure (WithRest (List Node)) :=
    if isAt ts (.op .colon) then do
      let (type, ts) ← typeDef .colon ts
      pure ([type], ts)
    else .ok ([], ts)

/-- A parameter list. -/
def parameterList (ts : List Token) : Except Failure (WithRest Node) := do
  let (paren, ts) ← expect ts (.op .leftParen) (.op .leftParen) .parameterListExpected
  let (rest, ts) ← parameters (ts.length + 1) ts
  pure (.branch .paramList paren rest, ts)

/-- The return type of a function, if it has one. -/
def returnType (ts : List Token) : Except Failure (WithRest (List Node)) :=
  if isAt ts (.op .arrow) then do
    let (type, ts) ← typeDef .arrow ts
    pure ([type], ts)
  else .ok ([], ts)

/-- The head of a function definition up to its body. -/
def functionHead (t : Token) (ts : List Token) : Except Failure (WithRest (Node × List Node)) := do
  let (name, ts) ← expect ts .ident .variableName .functionNameExpected
  let (params, ts) ← parameterList ts
  let (type, ts) ← returnType ts
  pure ((.leaf (.keyword .def_) t, name :: params :: type), ts)

mutual

/-- A statement. -/
def statement (bound : Nat) (ts : List Token) : Except Failure (WithRest Node) :=
  match bound with
  | 0 => fail ts .nestedTooDeeply
  | bound + 1 =>
    match ts with
    | [] => unexpected ts
    | t :: after =>
      match t.kind with
      | .keyword .def_ => do
        let ((first, rest), ts) ← functionHead t after
        let (body, ts) ← body bound ts
        pure (.branch .functionDefinition first (rest ++ [body]), ts)
      | .keyword .if_ => do
        let (condition, ts) ← expression after
        let (body, ts) ← body bound ts
        let (more, ts) ← alternatives bound ts
        pure (.branch .ifStatement (.leaf (.keyword .if_) t) (condition :: body :: more), ts)
      | .keyword .while_ => do
        let (condition, ts) ← expression after
        let (body, ts) ← body bound ts
        let (more, ts) ← otherwise bound ts
        pure (.branch .whileStatement (.leaf (.keyword .while_) t) (condition :: body :: more), ts)
      | .keyword .for_ => do
        let (target, ts) ← expression after
        let (keyword, ts) ← expect ts (.keyword .in_) (.keyword .in_) .inExpected
        let (values, ts) ← expression ts
        let (body, ts) ← body bound ts
        pure (.branch .forStatement (.leaf (.keyword .for_) t) [target, keyword, values, body], ts)
      | _ => simpleStatement ts

/-- A body: a colon, then a statement on the same line or an indented block. -/
def body (bound : Nat) (ts : List Token) : Except Failure (WithRest Node) :=
  match bound with
  | 0 => fail ts .nestedTooDeeply
  | bound + 1 => do
    let (colon, ts) ← expect ts (.op .colon) (.op .colon) .bodyExpected
    if isAt ts .newline then
      match ts with
      | _ :: indent :: inside =>
        if indent.kind = .indent then do
          let (statements, ts) ← block bound inside
          pure (.branch .body colon statements, ts)
        else fail (indent :: inside) .blockExpected
      | _ => fail ts .blockExpected
    else do
      let (only, ts) ← simpleStatement ts
      pure (.branch .body colon [only], ts)

/-- The statements of an indented block and the token that closes it. -/
def block (bound : Nat) (ts : List Token) : Except Failure (WithRest (List Node)) :=
  match bound with
  | 0 => fail ts .nestedTooDeeply
  | bound + 1 =>
    match ts with
    | [] => unexpected ts
    | t :: after =>
      if t.kind = .dedent then .ok ([], after)
      else if t.kind = .endOfInput then unexpected ts
      else do
        let (first, ts) ← statement bound ts
        let (rest, ts) ← block bound ts
        pure (first :: rest, ts)

/-- The `elif` and `else` parts of an `if` statement. -/
def alternatives (bound : Nat) (ts : List Token) : Except Failure (WithRest (List Node)) :=
  match bound with
  | 0 => fail ts .nestedTooDeeply
  | bound + 1 =>
    match ts with
    | [] => .ok ([], ts)
    | t :: after =>
      if t.kind = .keyword .elif then do
        let (condition, ts) ← expression after
        let (body, ts) ← body bound ts
        let (more, ts) ← alternatives bound ts
        pure (.leaf (.keyword .elif) t :: condition :: body :: more, ts)
      else otherwise bound ts

/-- An `else` part, if there is one. -/
def otherwise (bound : Nat) (ts : List Token) : Except Failure (WithRest (List Node)) :=
  match bound with
  | 0 => fail ts .nestedTooDeeply
  | bound + 1 =>
    match ts with
    | [] => .ok ([], ts)
    | t :: after =>
      if t.kind = .keyword .else_ then do
        let (body, ts) ← body bound after
        pure ([.leaf (.keyword .else_) t, body], ts)
      else .ok ([], ts)

end

/-- The statements of a source up to its end. -/
def statements (bound : Nat) (ts : List Token) : Except Failure (List Node) :=
  match bound with
  | 0 => fail ts .nestedTooDeeply
  | bound + 1 =>
    if isAt ts .endOfInput then .ok []
    else do
      let (first, ts) ← statement (depthBound ts) ts
      let rest ← statements bound ts
      pure (first :: rest)

/-- The syntax tree of a list of tokens that spans `size` bytes. -/
def ofTokens (size : Nat) (ts : List Token) : Except Failure Node := do
  let children ← statements (ts.length + 1) ts
  pure ⟨.script, 0, size, children⟩

/-- The syntax tree of a source. -/
def parse (source : Text) : Except (Located Fault) Node :=
  match tokenize source with
  | .error error => .error ⟨.lexical error.what, error.pos⟩
  | .ok ts =>
    (ofTokens source.length ts).mapError fun failure =>
      ⟨failure.fault, (LineIndex.ofText source).position failure.offset⟩

end WatCompiler.SyntaxTree
