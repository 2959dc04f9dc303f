import WatCompiler.Proofs.Token.Spelling
import WatCompiler.Program
import WatCompiler.SyntaxTree.Expression

/-!
# Programs as source text

How a program is written: every statement is a line of words, or a head and an indented block. The
words of a program (`Program.outline`) do not depend on its positions; what they spell with a given
indentation is the text of the program (`Program.text`).

Not every program can be written. One in source form (`Program.inSourceForm`) has names that are
names, types and literals that have a spelling, blocks that are not empty, conditionals whose arms
follow each other as `if`, `elif` and `else`, and a pair of parentheses around every operand that
binds looser than the operator it stands beside.
-/

namespace WatCompiler

open SyntaxTree

/-! ## Words and lines -/

namespace Source

/-- What a token says: its sort and its spelling. Nothing stands between a tight one, the sign of an
operand, and the operand. -/
structure Lexeme where
  kind : Token.Kind
  text : Text
  tight : Bool
deriving DecidableEq, Repr

namespace Lexeme

/-- A name. -/
def name (text : Text) : Lexeme := ⟨.ident, text, false⟩

/-- The numeral of a number. -/
def numeral (n : Nat) : Lexeme := ⟨.int, Text.ofNat n, false⟩

/-- A keyword. -/
def keyword (k : Keyword) : Lexeme := ⟨.keyword k, k.text, false⟩

/-- An operator between two operands, or a delimiter. -/
def op (o : Operator) : Lexeme := ⟨.op o, o.text, false⟩

/-- An operator before its operand. -/
def sign (o : Operator) : Lexeme := ⟨.op o, o.text, true⟩

/-- A token that shows the line structure. It has no spelling of its own. -/
def layout (kind : Token.Kind) : Lexeme := ⟨kind, [], false⟩

/-- Whether the lexeme can be the first of an operand. -/
def opensOperand (x : Lexeme) : Bool :=
  match x.kind with
  | .ident | .int | .keyword _ | .op .leftParen | .op .minus | .op .plus => true
  | _ => false

/-- Whether nothing stands between two lexemes. -/
def touches (x y : Lexeme) : Bool :=
  x.kind = .op .leftParen || y.kind = .op .rightParen || y.kind = .op .comma ||
    y.kind = .op .colon || (x.kind = .ident && y.kind = .op .leftParen) ||
    (x.tight && y.opensOperand)

end Lexeme

/-- Lexemes in a row, with a blank between those that do not touch. -/
def write : List Lexeme → Text
  | [] => []
  | [x] => x.text
  | x :: y :: rest => x.text ++ (if x.touches y then [] else [Text.byte ' ']) ++ write (y :: rest)

/-- A line with a margin of a given width. -/
def writeLine (margin : Nat) (words : List Lexeme) : Text :=
  List.replicate margin (Text.byte ' ') ++ write words ++ [Text.newline]

/-- A source by lines: one line, or a line with an indented block under it. -/
inductive Outline
  | line (words : List Lexeme)
  | block (head : List Lexeme) (body : List Outline)

namespace Outline

mutual

/-- The text of an outline with a given margin; a block stands `step` further in. -/
def text (step margin : Nat) : Outline → Text
  | line words => writeLine margin words
  | block head body => writeLine margin head ++ textAll step (margin + step) body

/-- The text of some outlines. -/
def textAll (step margin : Nat) : List Outline → Text
  | [] => []
  | first :: rest => first.text step margin ++ textAll step margin rest

end

mutual

/-- The tokens of an outline. -/
def lexemes : Outline → List Lexeme
  | line words => words ++ [.layout .newline]
  | block head body =>
    head ++ .layout .newline :: .layout .indent :: lexemesAll body ++ [.layout .dedent]

/-- The tokens of some outlines. -/
def lexemesAll : List Outline → List Lexeme
  | [] => []
  | first :: rest => first.lexemes ++ lexemesAll rest

end

end Outline

end Source

open Source

/-! ## The words of a program -/

/-- A literal. A negative number is written with a sign. -/
def Literal.lexemes : Literal → List Lexeme
  | .none => [.keyword .none]
  | .true => [.keyword .true]
  | .false => [.keyword .false]
  | .number value | .other _ value =>
    if value < 0 then [.sign .minus, .numeral value.toInt.natAbs]
    else [.numeral value.toInt.natAbs]

/-- An operator before its operand. -/
def UnaryOp.lexeme : UnaryOp → Lexeme
  | .not => .keyword .not
  | .negate => .sign .minus
  | .plus => .sign .plus
  | .other symbol => .name symbol

/-- An operator between its operands. -/
def BinaryOp.lexeme : BinaryOp → Lexeme
  | .add => .op .plus
  | .subtract => .op .minus
  | .multiply => .op .times
  | .remainder => .op .modulo
  | .divide => .op .floorDivide
  | .equal => .op .equal
  | .notEqual => .op .notEqual
  | .lessEqual => .op .lessEqual
  | .greaterEqual => .op .greaterEqual
  | .less => .op .less
  | .greater => .op .greater
  | .is => .keyword .is
  | .other symbol => .name symbol

/-- A type. -/
def Ty.lexeme : Ty → Lexeme
  | .none => .keyword .none
  | type => .name type.name

/-- What separates an element of a list in parentheses from the elements after it. -/
def Source.separator {α : Type} (rest : List α) : List Lexeme :=
  if rest.isEmpty then [] else [.op .comma]

variable {α : Type}

mutual

/-- An expression. -/
def Expr.lexemes : Expr α → List Lexeme
  | .literal _ value => value.lexemes
  | .ident _ name => [.name name]
  | .unary _ op arg => op.lexeme :: arg.lexemes
  | .binary _ op lhs rhs => lhs.lexemes ++ op.lexeme :: rhs.lexemes
  | .paren _ arg => .op .leftParen :: arg.lexemes ++ [.op .rightParen]
  | .call _ function args => .name function :: .op .leftParen :: Expr.argLexemes args

/-- The arguments of a call and the parenthesis that closes them. -/
def Expr.argLexemes : List (Expr α) → List Lexeme
  | [] => [.op .rightParen]
  | arg :: rest => arg.lexemes ++ separator rest ++ Expr.argLexemes rest

end

theorem Literal.lexemes_ne_nil (value : Literal) : value.lexemes ≠ [] := by
  cases value <;> simp only [lexemes] <;> (try split) <;> exact List.cons_ne_nil _ _

/-- No expression is written as nothing. -/
theorem Expr.lexemes_ne_nil (e : Expr α) : e.lexemes ≠ [] := by
  cases e with
  | literal _ value => exact value.lexemes_ne_nil
  | binary _ _ lhs _ => exact List.append_ne_nil_of_right_ne_nil _ (List.cons_ne_nil _ _)
  | ident | unary | paren | call => exact List.cons_ne_nil _ _

mutual

/-- The lines of a statement. A conditional that comes after another arm starts with `elif`. -/
def Stmt.outline (arm : Bool) : Stmt α → List Outline
  | .assign _ target value => [.line (.name target :: .op .assign :: value.lexemes)]
  | .expr _ value => [.line value.lexemes]
  | .ret _ none => [.line [.keyword .return_]]
  | .ret _ (some value) => [.line (.keyword .return_ :: value.lexemes)]
  | .while_ _ test body =>
    [.block (.keyword .while_ :: test.lexemes ++ [.op .colon]) (Stmt.outlineAll body)]
  | .cond _ none body orElse =>
    .block [.keyword .else_, .op .colon] (Stmt.outlineAll body) :: Stmt.outlineElse orElse
  | .cond _ (some test) body orElse =>
    .block (.keyword (if arm then .elif else .if_) :: test.lexemes ++ [.op .colon])
      (Stmt.outlineAll body) :: Stmt.outlineElse orElse
  | .pass _ => [.line [.keyword .pass]]

/-- The lines of a block. -/
def Stmt.outlineAll : List (Stmt α) → List Outline
  | [] => []
  | s :: rest => s.outline false ++ Stmt.outlineAll rest

/-- The lines of the other arms of a conditional. -/
def Stmt.outlineElse : Option (Stmt α) → List Outline
  | none => []
  | some s => s.outline true

end

/-- The line of a definition. -/
def VarDef.outline (v : VarDef α) : Outline :=
  .line (.name v.name :: .op .colon :: v.type.lexeme :: .op .assign :: v.literal.lexemes)

/-- The parameters of a function and the parenthesis that closes them. -/
def Param.lexemes : List (Param α) → List Lexeme
  | [] => [.op .rightParen]
  | p :: rest =>
    .name p.name :: .op .colon :: p.type.lexeme :: separator rest ++ Param.lexemes rest

/-- The lines of a function. -/
def FuncDef.outline (f : FuncDef α) : Outline :=
  .block
    (.keyword .def_ :: .name f.name :: .op .leftParen :: Param.lexemes f.params ++
      [.op .arrow, f.returns.lexeme, .op .colon])
    (f.locals.map VarDef.outline ++ Stmt.outlineAll f.stmts)

/-- The lines of a program: variables, functions, statements. -/
def Program.outline (p : Program α) : List Outline :=
  p.globals.map VarDef.outline ++ p.functions.map FuncDef.outline ++ Stmt.outlineAll p.stmts

/-- The text of a program, with blocks indented by `step`. -/
def Program.text (step : Nat) (p : Program α) : Text := Outline.textAll step 0 p.outline

/-! ## Source form -/

/-- How tightly the operator binds, and how tightly its operand has to. -/
def UnaryOp.level : UnaryOp → Nat
  | .not => Level.not
  | _ => Level.unary

/-- How tightly the operator binds. -/
def BinaryOp.level : BinaryOp → Nat
  | .add | .subtract => Level.sum
  | .multiply | .remainder | .divide => Level.product
  | _ => Level.compare

/-- An operand without operators binds tighter than any operator. -/
def SyntaxTree.Level.operand : Nat := Level.power + 1

/-- How tightly an expression binds: as its outermost operator does. -/
def Expr.level : Expr α → Nat
  | .literal _ (.number value) => if value < 0 then Level.unary else Level.operand
  | .unary _ op _ => op.level
  | .binary _ op _ _ => op.level
  | _ => Level.operand

/-- The literals that an expression can be: of the negative numbers only the least one, since the
others are read as negations. -/
def Literal.inSourceForm : Literal → Bool
  | .number value => 0 ≤ value || value = Int32.minValue
  | .other _ _ => .false
  | _ => .true

/-- The literals that a variable can start with. -/
def Literal.isInitial : Literal → Bool
  | .number value => 0 ≤ value
  | .other _ _ => .false
  | _ => .true

mutual

/-- Operands bind at least as tightly as the operator, the right one more tightly. -/
def Expr.inSourceForm : Expr α → Bool
  | .literal _ value => value.inSourceForm
  | .ident _ name => Token.isIdentifier name
  | .unary _ op arg => op ∈ UnaryOp.all && op.level ≤ arg.level && arg.inSourceForm
  | .binary _ op lhs rhs =>
    op ∈ BinaryOp.all && op.level ≤ lhs.level && op.level < rhs.level && lhs.inSourceForm &&
      rhs.inSourceForm
  | .paren _ arg => arg.inSourceForm
  | .call _ function args => Token.isIdentifier function && Expr.allInSourceForm args

/-- Every expression of a list is in source form. -/
def Expr.allInSourceForm : List (Expr α) → Bool
  | [] => true
  | e :: rest => e.inSourceForm && Expr.allInSourceForm rest

end

mutual

/-- Blocks are not empty. A conditional without a test comes last after other arms; only a
conditional can stand there. -/
def Stmt.inSourceForm (arm : Bool) : Stmt α → Bool
  | .assign _ target value => !arm && Token.isIdentifier target && value.inSourceForm
  | .expr _ value => !arm && value.inSourceForm
  | .ret _ none => !arm
  | .ret _ (some value) => !arm && value.inSourceForm
  | .while_ _ test body =>
    !arm && test.inSourceForm && !body.isEmpty && Stmt.allInSourceForm body
  | .cond _ none body orElse =>
    arm && orElse.isNone && !body.isEmpty && Stmt.allInSourceForm body
  | .cond _ (some test) body orElse =>
    test.inSourceForm && !body.isEmpty && Stmt.allInSourceForm body &&
      Stmt.elseInSourceForm orElse
  | .pass _ => !arm

/-- Every statement of a block is in source form. -/
def Stmt.allInSourceForm : List (Stmt α) → Bool
  | [] => true
  | s :: rest => s.inSourceForm false && Stmt.allInSourceForm rest

/-- The other arms of a conditional are in source form. -/
def Stmt.elseInSourceForm : Option (Stmt α) → Bool
  | none => true
  | some s => s.inSourceForm true

end

/-- A variable has a name, a type that variables can have and a literal to start with. -/
def VarDef.inSourceForm (v : VarDef α) : Bool :=
  Token.isIdentifier v.name && v.type ∈ [Ty.int, Ty.bool] && v.literal.isInitial

/-- A parameter has a name and a type that variables can have. -/
def Param.inSourceForm (p : Param α) : Bool :=
  Token.isIdentifier p.name && p.type ∈ [Ty.int, Ty.bool]

/-- A function has a name, a type to return and a body that is not empty. -/
def FuncDef.inSourceForm (f : FuncDef α) : Bool :=
  Token.isIdentifier f.name && f.params.all Param.inSourceForm &&
    f.returns ∈ [Ty.int, Ty.bool, Ty.none] && f.locals.all VarDef.inSourceForm &&
    Stmt.allInSourceForm f.stmts && !(f.locals.isEmpty && f.stmts.isEmpty)

/-- A program that can be written as a source. -/
def Program.inSourceForm (p : Program α) : Bool :=
  p.globals.all VarDef.inSourceForm && p.functions.all FuncDef.inSourceForm &&
    Stmt.allInSourceForm p.stmts

/-! ## Programs without positions -/

/-- An annotation without a position. -/
def Info.unplaced (info : Info α) : Info α := ⟨info.ann, .unknown⟩

mutual

/-- An expression without positions. -/
def Expr.unplaced : Expr α → Expr α
  | .literal info value => .literal info.unplaced value
  | .ident info name => .ident info.unplaced name
  | .unary info op arg => .unary info.unplaced op arg.unplaced
  | .binary info op lhs rhs => .binary info.unplaced op lhs.unplaced rhs.unplaced
  | .paren info arg => .paren info.unplaced arg.unplaced
  | .call info function args => .call info.unplaced function (Expr.allUnplaced args)

/-- Expressions without positions. -/
def Expr.allUnplaced : List (Expr α) → List (Expr α)
  | [] => []
  | e :: rest => e.unplaced :: Expr.allUnplaced rest

end

mutual

/-- A statement without positions. -/
def Stmt.unplaced : Stmt α → Stmt α
  | .assign info target value => .assign info.unplaced target value.unplaced
  | .expr info value => .expr info.unplaced value.unplaced
  | .ret info value => .ret info.unplaced (value.map Expr.unplaced)
  | .while_ info test body => .while_ info.unplaced test.unplaced (Stmt.allUnplaced body)
  | .cond info test body orElse =>
    .cond info.unplaced (test.map Expr.unplaced) (Stmt.allUnplaced body)
      (Stmt.elseUnplaced orElse)
  | .pass info => .pass info.unplaced

/-- Statements without positions. -/
def Stmt.allUnplaced : List (Stmt α) → List (Stmt α)
  | [] => []
  | s :: rest => s.unplaced :: Stmt.allUnplaced rest

/-- The other arms of a conditional without positions. -/
def Stmt.elseUnplaced : Option (Stmt α) → Option (Stmt α)
  | none => none
  | some s => some s.unplaced

end

/-- A definition without positions. -/
def VarDef.unplaced (v : VarDef α) : VarDef α :=
  { v with info := v.info.unplaced, literalInfo := v.literalInfo.unplaced }

/-- A parameter without its position. -/
def Param.unplaced (p : Param α) : Param α := { p with info := p.info.unplaced }

/-- A function without positions. -/
def FuncDef.unplaced (f : FuncDef α) : FuncDef α :=
  { f with
    pos := .unknown
    params := f.params.map Param.unplaced
    bodyInfo := f.bodyInfo.unplaced
    locals := f.locals.map VarDef.unplaced
    stmts := Stmt.allUnplaced f.stmts }

/-- A program without positions. -/
def Program.unplaced (p : Program α) : Program α :=
  ⟨p.functions.map FuncDef.unplaced, p.globals.map VarDef.unplaced, Stmt.allUnplaced p.stmts⟩

end WatCompiler
