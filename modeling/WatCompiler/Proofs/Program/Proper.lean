import WatCompiler.Program.Dump
import WatCompiler.Proofs.Position
import WatCompiler.Proofs.Token.Spelling

/-!
# Proper programs

A program can be built that no source has: with operators, literals or types that the language
lacks, with names that are none, with an arm after `else`, or without positions. A proper one
(`Program.Proper`) is none of these: each of its parts stands at a place with a given property, and
is annotated with types of the language only. Stages that work on proper programs answer with a
result or with a fault at such a place (`Answers`).
-/

namespace WatCompiler

open Token (isIdentifier)

/-! ## Answers with a place -/

/-- The position is that of an offset in the source or of its end. -/
def Position.IsIn (source : Text) (p : Position) : Prop :=
  ∃ offset ≤ source.length, p = (LineIndex.ofText source).position offset

theorem Position.IsIn.isKnown {source : Text} {p : Position} (h : p.IsIn source) :
    p.isKnown = true := by
  obtain ⟨offset, -, rfl⟩ := h
  exact LineIndex.isKnown_position source offset

section Answers

variable {ε α β : Type} {P : Located ε → Prop} {good : α → Prop} {good' : β → Prop}

/-- The answer is good, or it is a fault with `P`. -/
def Answers (P : Located ε → Prop) (good : α → Prop) : Except (Located ε) α → Prop
  | .ok a => good a
  | .error e => P e

namespace Answers

/-- A computation that goes on after another one. -/
theorem bind {x : Except (Located ε) α} {f : α → Except (Located ε) β} (h : Answers P good x)
    (hf : ∀ a, good a → Answers P good' (f a)) : Answers P good' (x >>= f) := by
  cases x with
  | ok a => exact hf a h
  | error e => exact h

theorem imp {good' : α → Prop} {x : Except (Located ε) α} (h : Answers P good x)
    (hgood : ∀ a, good a → good' a) : Answers P good' x := by
  cases x with
  | ok a => exact hgood a h
  | error e => exact h

theorem of_eq_ok {x : Except (Located ε) α} {a : α} (h : Answers P good x) (hx : x = .ok a) :
    good a := by
  rwa [hx] at h

/-- A fault has the property that faults are to have. -/
theorem of_eq_error {x : Except (Located ε) α} {e : Located ε} (h : Answers P good x)
    (hx : x = .error e) : P e := by
  rwa [hx] at h

end Answers

end Answers

/-! ## Proper programs -/

/-- Whether the language has the literal. -/
def Literal.isKnown : Literal → Bool
  | .other _ _ => .false
  | _ => .true

/-- Whether the language has the type. -/
def Ty.isKnown : Ty → Bool
  | .other _ => false
  | _ => true

variable {α : Type} [WatCompiler.Annotated α] (P : Position → Prop)

/-- The part stands at a place with `P`, and a type that its annotation shows is one of the
language. -/
structure Info.Proper (info : Info α) : Prop where
  pos : P info.pos
  known : ∀ type ∈ Annotated.shown info.ann, type.isKnown = true

mutual

/-- Every part is proper, names are names, and the language has the operators and the literals. -/
def Expr.Proper : Expr α → Prop
  | .literal info value => info.Proper P ∧ value.isKnown = true
  | .ident info name => info.Proper P ∧ isIdentifier name = true
  | .unary info op arg => info.Proper P ∧ op ∈ UnaryOp.all ∧ arg.Proper
  | .binary info op lhs rhs => info.Proper P ∧ op ∈ BinaryOp.all ∧ lhs.Proper ∧ rhs.Proper
  | .paren info arg => info.Proper P ∧ arg.Proper
  | .call info function args => info.Proper P ∧ isIdentifier function = true ∧ Expr.AllProper args

/-- All expressions are proper. -/
def Expr.AllProper : List (Expr α) → Prop
  | [] => True
  | e :: rest => e.Proper ∧ Expr.AllProper rest

end

theorem Expr.Proper.info {P : Position → Prop} {e : Expr α} (h : e.Proper P) :
    e.info.Proper P := by
  cases e with
  | literal | ident | unary | binary | paren | call =>
    rw [Expr.Proper] at h
    exact h.1

mutual

/-- Every part of the statement is proper, and an arm without a test is the last one. -/
def Stmt.Proper : Stmt α → Prop
  | .assign info target value => info.Proper P ∧ isIdentifier target = true ∧ value.Proper P
  | .expr info value => info.Proper P ∧ value.Proper P
  | .ret info value => info.Proper P ∧ ∀ e ∈ value, e.Proper P
  | .while_ info test body => info.Proper P ∧ test.Proper P ∧ Stmt.AllProper body
  | .cond info test body orElse =>
    info.Proper P ∧ (∀ e ∈ test, e.Proper P) ∧ Stmt.AllProper body ∧ Stmt.ArmProper orElse ∧
      (test = none → orElse = none)
  | .pass info => info.Proper P

/-- All statements are proper. -/
def Stmt.AllProper : List (Stmt α) → Prop
  | [] => True
  | s :: rest => s.Proper ∧ Stmt.AllProper rest

/-- The next arm of a conditional, if there is one, is proper. -/
def Stmt.ArmProper : Option (Stmt α) → Prop
  | none => True
  | some next => next.Proper

end

theorem Stmt.Proper.info {P : Position → Prop} {s : Stmt α} (h : s.Proper P) :
    s.info.Proper P := by
  cases s with
  | pass => exact h
  | assign | expr | ret | while_ | cond => exact h.1

/-- Statements are proper one by one. -/
theorem Stmt.allProper_iff {P : Position → Prop} {body : List (Stmt α)} :
    Stmt.AllProper P body ↔ ∀ s ∈ body, s.Proper P := by
  induction body with
  | nil => exact ⟨fun _ => List.forall_mem_nil _, fun _ => trivial⟩
  | cons s rest ih => rw [Stmt.AllProper, ih, List.forall_mem_cons]

/-- The variable has a place, a name, and a type and a literal of the language, and its annotation
shows no other type. -/
structure VarDef.Proper (v : VarDef α) : Prop where
  pos : P v.info.pos
  literalInfo : v.literalInfo.Proper P
  name : isIdentifier v.name = true
  type : v.type.isKnown = true
  literal : v.literal.isKnown = true
  declared : ∀ type ∈ Annotated.shown v.info.ann, type = v.type

/-- The parameter has a place, a name and a type of the language, and its annotation shows no other
type. -/
structure Param.Proper (p : Param α) : Prop where
  pos : P p.info.pos
  name : isIdentifier p.name = true
  type : p.type.isKnown = true
  declared : ∀ type ∈ Annotated.shown p.info.ann, type = p.type

/-- Every part of the function is proper. -/
structure FuncDef.Proper (f : FuncDef α) : Prop where
  pos : P f.pos
  body : f.bodyInfo.Proper P
  name : isIdentifier f.name = true
  params : ∀ p ∈ f.params, p.Proper P
  returns : f.returns.isKnown = true
  locals : ∀ v ∈ f.locals, v.Proper P
  stmts : Stmt.AllProper P f.stmts

/-- Every part of the program is proper. -/
structure Program.Proper (p : Program α) : Prop where
  globals : ∀ v ∈ p.globals, v.Proper P
  functions : ∀ f ∈ p.functions, f.Proper P
  stmts : Stmt.AllProper P p.stmts

end WatCompiler
