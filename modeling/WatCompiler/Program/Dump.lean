import WatCompiler.Datum.Printer
import WatCompiler.Program
import WatCompiler.Text.Quoted

/-!
# Programs as data

The tree of a program as a datum, for tests and for looking at. Names are strings, types and
literals are atoms. After type checking expressions have a `type` tag and statements and bodies a
`returns` tag.
-/

namespace WatCompiler

/-- Annotations that may show a type. -/
class Annotated (α : Type) where
  /-- The type that the annotation shows. -/
  shown : α → Option Ty

/-- Before type checking there is nothing to show. -/
instance : Annotated Unit := ⟨fun _ => none⟩

/-- After type checking every part has a type. -/
instance : Annotated Ty := ⟨some⟩

variable {α : Type} [Annotated α]

/-- The tag for an annotation. -/
def Info.tag (info : Info α) (key : String) : List (Text × Datum) :=
  match Annotated.shown info.ann with
  | none => []
  | some type => [(key, .symbol type.name)]

/-- A list that starts with a symbol. -/
def Datum.headed (head : String) (items : List Datum) (tags : List (Text × Datum)) : Datum :=
  .list (.symbol head :: items) tags

/-- A literal as a datum. -/
def Literal.toDatum : Literal → Datum
  | .number value => .integer (Literal.number value).text
  | .other kind value => .integer (Literal.other kind value).text
  | literal => .symbol literal.text

mutual

/-- An expression as a datum. -/
def Expr.toDatum : Expr α → Datum
  | .literal info value => .headed "lit" [value.toDatum] (info.tag "type")
  | .ident info name => .headed "id" [.string name] (info.tag "type")
  | .unary info op arg => .headed "unary" [.string op.symbol, arg.toDatum] (info.tag "type")
  | .binary info op lhs rhs =>
    .headed "binary" [.string op.symbol, lhs.toDatum, rhs.toDatum] (info.tag "type")
  | .paren info arg => .headed "paren" [arg.toDatum] (info.tag "type")
  | .call info function args =>
    .headed "call" (.string function :: Expr.toData args) (info.tag "type")

/-- Expressions as data. -/
def Expr.toData : List (Expr α) → List Datum
  | [] => []
  | e :: rest => e.toDatum :: Expr.toData rest

end

mutual

/-- A statement as a datum. An arm without a test is dumped without what would follow it. -/
def Stmt.toDatum : Stmt α → Datum
  | .assign info target value =>
    .headed "assign" [.string target, value.toDatum] (info.tag "returns")
  | .expr info value => .headed "expr" [value.toDatum] (info.tag "returns")
  | .ret info none => .headed "return" [] (info.tag "returns")
  | .ret info (some value) => .headed "return" [value.toDatum] (info.tag "returns")
  | .while_ info test body =>
    .headed "while" (test.toDatum :: Stmt.toData body) (info.tag "returns")
  | .cond info none body _ => .headed "else" (Stmt.toData body) (info.tag "returns")
  | .cond info (some test) body orElse =>
    .headed "if" (test.toDatum :: .headed "then" (Stmt.toData body) [] :: Stmt.armToData orElse)
      (info.tag "returns")
  | .pass info => .headed "pass" [] (info.tag "returns")

/-- Statements as data. -/
def Stmt.toData : List (Stmt α) → List Datum
  | [] => []
  | s :: rest => s.toDatum :: Stmt.toData rest

/-- The next arm of a conditional as data. -/
def Stmt.armToData : Option (Stmt α) → List Datum
  | none => []
  | some arm => [arm.toDatum]

end

/-- A variable definition as a datum. -/
def VarDef.toDatum (v : VarDef α) : Datum :=
  .headed "var" [.string v.name, .symbol v.type.name,
    .headed "lit" [v.literal.toDatum] (v.literalInfo.tag "type")] []

/-- A parameter as a datum. -/
def Param.toDatum (p : Param α) : Datum :=
  .headed "param" [.string p.name, .symbol p.type.name] []

/-- A function definition as a datum. -/
def FuncDef.toDatum (f : FuncDef α) : Datum :=
  .headed "def" [.string f.name, .array (f.params.map Param.toDatum) [], .symbol f.returns.name,
    .headed "body" (f.locals.map VarDef.toDatum ++ Stmt.toData f.stmts)
      (f.bodyInfo.tag "returns")] []

/-- A program as a datum. -/
def Program.toDatum (p : Program α) : Datum :=
  .headed "program" (p.functions.map FuncDef.toDatum ++ p.globals.map VarDef.toDatum ++
    Stmt.toData p.stmts) []

/-- The text of a program's datum. -/
def Program.dump (p : Program α) : Text := p.toDatum.renderWith Text.quote

/-- The text of an expression's datum. -/
def Expr.dump (e : Expr α) : Text := e.toDatum.renderWith Text.quote

end WatCompiler
