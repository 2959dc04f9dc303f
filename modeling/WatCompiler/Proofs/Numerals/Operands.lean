import WatCompiler.Proofs.Program.Erasure
import WatCompiler.Proofs.Numerals.Trees
import WatCompiler.Wat.Instr

/-!
# The numbers in a program

The instructions that push the numbers of a program, from left to right, each with its place. A
number is pushed by one constant; a minus sign before a number is a multiplication of its own, which
belongs to the number.
Annotations do not matter (`Program.operands_erase`).
-/

namespace WatCompiler

/-- The code for a number and the minus sign before it. -/
def negationCode (v : Int32) : List Instr := [.const v, .const (-1), .arith .mul]

namespace Numeral

/-- The code that pushes the value. Only the largest magnitude cannot be pushed before its sign is
applied. -/
def code (x : Numeral) : List Instr :=
  if x.negated = true ∧ x.magnitude ≤ 2147483647 then negationCode (Int32.ofInt x.magnitude)
  else [.const (Int32.ofInt x.value)]

/-- The code of the numerals in expressions, each with its place in the source. -/
def operands (source : Text) (xs : List Numeral) : List (Located (List Instr)) :=
  (xs.filter fun x => !x.initial).map fun x => ⟨x.code, (LineIndex.ofText source).position x.start⟩

theorem operands_append (source : Text) (xs ys : List Numeral) :
    operands source (xs ++ ys) = operands source xs ++ operands source ys := by
  rw [operands, operands, operands, List.filter_append, List.map_append]

/-- Initial values are in no expression. -/
theorem operands_initial (source : Text) (xs : List Numeral) :
    operands source (xs.map fun x => { x with initial := true }) = [] := by
  rw [operands, List.map_eq_nil_iff, List.filter_eq_nil_iff]
  intro x hx
  obtain ⟨y, -, rfl⟩ := List.mem_map.mp hx
  exact Bool.false_ne_true

end Numeral

variable {α : Type}

/-- The code that pushes a literal at a place, if it is a number. -/
def Literal.operands (pos : Position) : Literal → List (Located (List Instr))
  | .number v => [⟨[.const v], pos⟩]
  | _ => []

/-- The code for a minus sign that is applied directly to a number without one. -/
def Expr.negation? (op : UnaryOp) (arg : Expr α) : Option (List Instr) :=
  match op, arg with
  | .negate, .literal _ (.number v) => if v < 0 then none else some (negationCode v)
  | _, _ => none

/-- Other operators, and the minus sign before other operands, are no part of a numeral. -/
theorem Expr.negation?_eq_none {op : UnaryOp} {arg : Expr α}
    (h : op = .negate → ∀ info v, arg = .literal info (.number v) → v < 0) :
    Expr.negation? op arg = none := by
  unfold Expr.negation?
  split
  · next info v => exact if_pos (h rfl info v rfl)
  · rfl

mutual

/-- The code that pushes the numbers of an expression. -/
def Expr.operands : Expr α → List (Located (List Instr))
  | .literal info value => value.operands info.pos
  | .ident _ _ => []
  | .unary info op arg =>
    match Expr.negation? op arg with
    | some code => [⟨code, info.pos⟩]
    | none => arg.operands
  | .binary _ _ lhs rhs => lhs.operands ++ rhs.operands
  | .paren _ arg => arg.operands
  | .call _ _ args => Expr.allOperands args

/-- The code that pushes the numbers of some expressions. -/
def Expr.allOperands : List (Expr α) → List (Located (List Instr))
  | [] => []
  | e :: rest => e.operands ++ Expr.allOperands rest

end

mutual

/-- The code that pushes the numbers of a statement. There is no arm after `else`. -/
def Stmt.operands : Stmt α → List (Located (List Instr))
  | .assign _ _ value | .expr _ value | .ret _ (some value) => value.operands
  | .ret _ none => []
  | .while_ _ test body => test.operands ++ Stmt.allOperands body
  | .cond _ none body _ => Stmt.allOperands body
  | .cond _ (some test) body orElse =>
    test.operands ++ (Stmt.allOperands body ++ Stmt.armOperands orElse)
  | .pass _ => []

/-- The code that pushes the numbers of some statements. -/
def Stmt.allOperands : List (Stmt α) → List (Located (List Instr))
  | [] => []
  | s :: rest => s.operands ++ Stmt.allOperands rest

/-- The code that pushes the numbers of the next arm of a conditional. -/
def Stmt.armOperands : Option (Stmt α) → List (Located (List Instr))
  | none => []
  | some arm => arm.operands

end

/-- The code that pushes the numbers of a program: those of its functions and of its statements. -/
def Program.operands (p : Program α) : List (Located (List Instr)) :=
  (p.functions.flatMap fun f => Stmt.allOperands f.stmts) ++ Stmt.allOperands p.stmts

/-! ## Annotations -/

theorem Expr.negation?_erase (op : UnaryOp) (arg : Expr α) :
    Expr.negation? op arg.erase = Expr.negation? op arg := by
  cases op with
  | negate =>
    cases arg with
    | literal info value => cases value <;> rfl
    | ident | unary | binary | paren | call => rfl
  | not | plus | other => rfl

mutual

/-- Annotations are no operands. -/
theorem Expr.operands_erase (e : Expr α) : e.erase.operands = e.operands := by
  match e with
  | .literal info value => rfl
  | .ident info name => rfl
  | .unary info op arg =>
    rw [Expr.erase, Expr.operands, Expr.operands, Expr.negation?_erase, Expr.operands_erase arg]
    rfl
  | .binary info op lhs rhs =>
    rw [Expr.erase, Expr.operands, Expr.operands, Expr.operands_erase lhs, Expr.operands_erase rhs]
  | .paren info arg => rw [Expr.erase, Expr.operands, Expr.operands, Expr.operands_erase arg]
  | .call info function args =>
    rw [Expr.erase, Expr.operands, Expr.operands, Expr.allOperands_erase args]

theorem Expr.allOperands_erase (es : List (Expr α)) :
    Expr.allOperands (Expr.eraseAll es) = Expr.allOperands es := by
  match es with
  | [] => rfl
  | e :: rest =>
    rw [Expr.eraseAll, Expr.allOperands, Expr.allOperands, Expr.operands_erase e,
      Expr.allOperands_erase rest]

end

mutual

/-- The same of statements. -/
theorem Stmt.operands_erase (s : Stmt α) : s.erase.operands = s.operands := by
  match s with
  | .assign info target value => exact Expr.operands_erase value
  | .expr info value => exact Expr.operands_erase value
  | .ret info none => rfl
  | .ret info (some value) => exact Expr.operands_erase value
  | .while_ info test body =>
    rw [Stmt.erase, Stmt.operands, Stmt.operands, Expr.operands_erase, Stmt.allOperands_erase body]
  | .cond info none body orElse =>
    rw [Stmt.erase, Option.map_none, Stmt.operands, Stmt.operands, Stmt.allOperands_erase body]
  | .cond info (some test) body orElse =>
    rw [Stmt.erase, Option.map_some, Stmt.operands, Stmt.operands, Expr.operands_erase,
      Stmt.allOperands_erase body, Stmt.armOperands_erase orElse]
  | .pass info => rfl

theorem Stmt.allOperands_erase (body : List (Stmt α)) :
    Stmt.allOperands (Stmt.eraseAll body) = Stmt.allOperands body := by
  match body with
  | [] => rfl
  | s :: rest =>
    rw [Stmt.eraseAll, Stmt.allOperands, Stmt.allOperands, Stmt.operands_erase s,
      Stmt.allOperands_erase rest]

theorem Stmt.armOperands_erase (orElse : Option (Stmt α)) :
    Stmt.armOperands (Stmt.eraseArm orElse) = Stmt.armOperands orElse := by
  match orElse with
  | none => rfl
  | some arm => rw [Stmt.eraseArm, Stmt.armOperands, Stmt.armOperands, Stmt.operands_erase arm]

end

/-- Annotations are no numbers. -/
theorem Program.operands_erase (p : Program α) : p.erase.operands = p.operands := by
  have hfunctions : (p.functions.map FuncDef.erase).flatMap (fun f => Stmt.allOperands f.stmts) =
      p.functions.flatMap fun f => Stmt.allOperands f.stmts := by
    rw [List.flatMap_map]
    exact congrArg (p.functions.flatMap ·) (funext fun f => Stmt.allOperands_erase f.stmts)
  rw [Program.operands, Program.operands, ← hfunctions, ← Stmt.allOperands_erase p.stmts]
  rfl

end WatCompiler
