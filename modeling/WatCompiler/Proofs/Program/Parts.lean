import WatCompiler.Proofs.Typing.WellTyped

/-!
# The parts of programs

The statements inside statements and the expressions inside expressions, at any depth. What goes
over from a statement to those directly inside it holds of all of them (`forall_mem_innerAll`), and
the parts of well-typed code are well typed (`wellTyped_of_mem_exprsIn`).
-/

namespace WatCompiler

variable {α : Type}

/-! ## Statements -/

mutual

/-- The statements inside a statement, at any depth. -/
def Stmt.inner : Stmt α → List (Stmt α)
  | .while_ _ _ body => innerAll body
  | .cond _ _ body orElse => innerAll body ++ innerElse orElse
  | _ => []

/-- Statements and the statements inside them. -/
def innerAll : List (Stmt α) → List (Stmt α)
  | [] => []
  | s :: rest => s :: (s.inner ++ innerAll rest)

/-- The next arm of a conditional, if there is one, and the statements inside it. -/
def innerElse : Option (Stmt α) → List (Stmt α)
  | none => []
  | some next => next :: next.inner

end

/-- The statements directly inside a statement. -/
def Stmt.children : Stmt α → List (Stmt α)
  | .while_ _ _ body => body
  | .cond _ _ body orElse => body ++ orElse.toList
  | _ => []

section Inner

variable {P : Stmt α → Prop}

mutual

/-- What passes on to the children of a statement holds of all statements inside of it. -/
theorem forall_mem_inner (hP : ∀ s, P s → ∀ s' ∈ s.children, P s') (s : Stmt α) (h : P s) :
    ∀ s' ∈ s.inner, P s' := by
  match s, h with
  | .assign .., _ | .expr .., _ | .ret .., _ | .pass .., _ => exact nofun
  | .while_ info test body, h => exact forall_mem_innerAll hP body (hP _ h)
  | .cond info test body orElse, h =>
    have hchildren := List.forall_mem_append.mp (hP _ h)
    exact List.forall_mem_append.mpr
      ⟨forall_mem_innerAll hP body hchildren.1, forall_mem_innerElse hP orElse hchildren.2⟩

/-- What holds of statements holds of all statements inside them, if it goes over from each to its
children. -/
theorem forall_mem_innerAll (hP : ∀ s, P s → ∀ s' ∈ s.children, P s') (ss : List (Stmt α))
    (h : ∀ s ∈ ss, P s) : ∀ s' ∈ innerAll ss, P s' := by
  match ss, h with
  | [], _ => exact nofun
  | s :: rest, h =>
    obtain ⟨hs, hrest⟩ := List.forall_mem_cons.mp h
    exact List.forall_mem_cons.mpr ⟨hs, List.forall_mem_append.mpr
      ⟨forall_mem_inner hP s hs, forall_mem_innerAll hP rest hrest⟩⟩

theorem forall_mem_innerElse (hP : ∀ s, P s → ∀ s' ∈ s.children, P s') (orElse : Option (Stmt α))
    (h : ∀ s ∈ orElse.toList, P s) : ∀ s' ∈ innerElse orElse, P s' := by
  match orElse, h with
  | none, _ => exact nofun
  | some next, h =>
    have hnext := h next List.mem_cons_self
    exact List.forall_mem_cons.mpr ⟨hnext, forall_mem_inner hP next hnext⟩

end

end Inner

/-! ## Expressions -/

mutual

/-- An expression and the expressions inside it. -/
def Expr.parts : Expr α → List (Expr α)
  | .literal info value => [.literal info value]
  | .ident info name => [.ident info name]
  | .unary info op arg => .unary info op arg :: arg.parts
  | .binary info op lhs rhs => .binary info op lhs rhs :: (lhs.parts ++ rhs.parts)
  | .paren info arg => .paren info arg :: arg.parts
  | .call info function args => .call info function args :: partsAll args

/-- Expressions and the expressions inside them. -/
def partsAll : List (Expr α) → List (Expr α)
  | [] => []
  | e :: rest => e.parts ++ partsAll rest

end

/-- The expressions directly inside a statement. -/
def Stmt.exprs : Stmt α → List (Expr α)
  | .assign _ _ value | .expr _ value => [value]
  | .ret _ value => value.toList
  | .while_ _ test _ => [test]
  | .cond _ test _ _ => test.toList
  | .pass _ => []

/-- All expressions in statements. -/
def exprsIn (body : List (Stmt α)) : List (Expr α) :=
  (innerAll body).flatMap fun s => s.exprs.flatMap Expr.parts

/-! ## Parts of well-typed code -/

variable {scope : Scope}

/-- Statements are well typed one by one. -/
theorem stmtsTyped_iff {ss : List (Stmt Ty)} :
    StmtsTyped scope ss ↔ ∀ s ∈ ss, s.WellTyped scope := by
  induction ss with
  | nil => exact ⟨fun _ => nofun, fun _ => trivial⟩
  | cons s rest ih => rw [StmtsTyped, ih, List.forall_mem_cons]

/-- The statements of a well-typed statement are well typed in the same scope. -/
theorem Stmt.WellTyped.children (s : Stmt Ty) (h : s.WellTyped scope) :
    ∀ s' ∈ s.children, s'.WellTyped scope := by
  cases s with
  | while_ info test body => exact stmtsTyped_iff.mp h.2.2
  | cond info test body orElse =>
    refine List.forall_mem_append.mpr ⟨stmtsTyped_iff.mp h.2.1, ?_⟩
    cases orElse with
    | none => exact nofun
    | some next => exact List.forall_mem_singleton.mpr h.2.2
  | _ => exact nofun

theorem Stmt.WellTyped.exprs {s : Stmt Ty} (h : s.WellTyped scope) :
    ∀ e ∈ s.exprs, e.WellTyped scope := by
  cases s with
  | assign info target value => exact List.forall_mem_singleton.mpr h.1
  | expr info value => exact List.forall_mem_singleton.mpr h
  | ret info value =>
    cases value with
    | none => exact nofun
    | some value => exact List.forall_mem_singleton.mpr h.2.1
  | while_ info test body => exact List.forall_mem_singleton.mpr h.1
  | cond info test body orElse =>
    intro e he
    exact (h.1 e (Option.mem_toList.mp he)).1
  | pass info => exact nofun

mutual

/-- The parts of a well-typed expression are well typed. -/
theorem Expr.WellTyped.parts (e : Expr Ty) (h : e.WellTyped scope) :
    ∀ e' ∈ e.parts, e'.WellTyped scope := by
  match e, h with
  | .literal .., h | .ident .., h => exact List.forall_mem_singleton.mpr h
  | .unary info op arg, h => exact List.forall_mem_cons.mpr ⟨h, Expr.WellTyped.parts arg h.1⟩
  | .binary info op lhs rhs, h =>
    exact List.forall_mem_cons.mpr ⟨h, List.forall_mem_append.mpr
      ⟨Expr.WellTyped.parts lhs h.1, Expr.WellTyped.parts rhs h.2.1⟩⟩
  | .paren info arg, h => exact List.forall_mem_cons.mpr ⟨h, Expr.WellTyped.parts arg h.1⟩
  | .call info function args, h =>
    have hcall := h
    obtain ⟨signature, -, -, hargs, -⟩ := hcall
    exact List.forall_mem_cons.mpr ⟨h, ArgsTyped.partsAll args hargs⟩

theorem ArgsTyped.partsAll {params : List Ty} (args : List (Expr Ty))
    (h : ArgsTyped scope params args) :
    ∀ e' ∈ partsAll args, e'.WellTyped scope := by
  match args, h with
  | [], _ => exact nofun
  | e :: rest, h =>
    exact List.forall_mem_append.mpr ⟨Expr.WellTyped.parts e h.1, ArgsTyped.partsAll rest h.2.2⟩

end

/-- Every expression somewhere in well-typed statements is well typed. -/
theorem wellTyped_of_mem_exprsIn {body : List (Stmt Ty)} (h : StmtsTyped scope body) :
    ∀ e ∈ exprsIn body, e.WellTyped scope := by
  intro e he
  obtain ⟨s, hs, he⟩ := List.mem_flatMap.mp he
  obtain ⟨whole, hwhole, he⟩ := List.mem_flatMap.mp he
  have hstmt := forall_mem_innerAll Stmt.WellTyped.children body (stmtsTyped_iff.mp h) s hs
  exact Expr.WellTyped.parts whole (hstmt.exprs whole hwhole) e he

end WatCompiler
