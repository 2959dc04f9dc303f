import WatCompiler.Proofs.Guarantee.Statements

/-!
# No function returns something else

What a function is sure to return is nothing or what it declares, so that checking never finds a
function that is sure to return something else (`check_agrees`). A program can only be refused
because a function may not return.
-/

namespace WatCompiler

namespace Typing

/-- Faults of functions that are sure to return something else than they declare. -/
def Fault.isReturnMismatch : Fault → Bool
  | alwaysReturns _ _ | returnsOther _ _ _ => true
  | _ => false

variable {α β γ : Type} {scope : Scope}

/-- If there is a fault, it is not that a function returns something else. -/
def Agrees (x : Except Failure β) : Prop := ∀ e, x = .error e → e.what.isReturnMismatch = false

namespace Agrees

theorem ok (b : β) : Agrees (.ok b) := nofun

/-- Any other fault will do. -/
theorem refuse {pos : Position} {fault : Fault} (h : fault.isReturnMismatch = false) :
    Agrees (Typing.refuse pos fault : Except Failure β) := by
  intro e he
  cases he
  exact h

/-- The second part may use what the first one found. -/
theorem bind {x : Except Failure β} {f : β → Except Failure γ} (h : Agrees x)
    (hf : ∀ b, x = .ok b → Agrees (f b)) : Agrees (x >>= f) := by
  cases x with
  | ok b => exact hf b rfl
  | error e =>
    intro e' he
    cases he
    exact h e rfl

end Agrees

mutual

/-- No fault of an expression is about what a function returns. -/
theorem checkExpr_agrees (e : Expr α) : Agrees (checkExpr scope e) := by
  match e with
  | .literal info value => exact .ok _
  | .ident info name =>
    unfold checkExpr
    split
    · exact .refuse rfl
    · exact .ok _
  | .unary info op arg =>
    refine .bind (checkExpr_agrees arg) fun arg' _ => ?_
    split
    · exact .refuse rfl
    · split
      · exact .ok _
      · exact .refuse rfl
  | .binary info op lhs rhs =>
    refine .bind (checkExpr_agrees lhs) fun lhs' _ => .bind (checkExpr_agrees rhs) fun rhs' _ => ?_
    dsimp only
    split
    · exact .refuse rfl
    · exact .ok _
  | .paren info arg => exact .bind (checkExpr_agrees arg) fun arg' _ => .ok _
  | .call info function args =>
    unfold checkExpr
    split
    · exact .refuse rfl
    · split
      · exact .refuse rfl
      · exact .bind (checkArgs_agrees args) fun args' _ => .ok _

theorem checkArgs_agrees (args : List (Expr α)) {function : Text} {number : Nat}
    {params : List Ty} :
    Agrees (checkArgs scope function number params args) := by
  match args with
  | [] => exact .ok _
  | arg :: rest =>
    refine .bind (checkExpr_agrees arg) fun first _ => ?_
    dsimp only
    split
    · exact .refuse rfl
    · exact .bind (checkArgs_agrees rest) fun others _ => .ok _

end

theorem checkCondition_agrees {construct : Construct} (test : Expr α) :
    Agrees (checkCondition scope construct test) := by
  refine .bind (checkExpr_agrees test) fun checked _ => ?_
  split
  · exact .ok _
  · exact .refuse rfl

theorem assignable_agrees {pos : Position} {name : Text} : Agrees (assignable scope pos name) := by
  unfold assignable
  split
  · exact .ok _
  · split
    · exact .refuse rfl
    · exact .ok _
  · exact .refuse rfl

mutual

/-- A return of the wrong type is a fault of the statement, not of the function. -/
theorem checkStmt_agrees (s : Stmt α) : Agrees (checkStmt scope s) := by
  match s with
  | .assign info target value =>
    refine .bind assignable_agrees fun type _ => .bind (checkExpr_agrees value) fun value' _ => ?_
    split
    · exact .ok _
    · exact .refuse rfl
  | .expr info value => exact .bind (checkExpr_agrees value) fun value' _ => .ok _
  | .ret info none =>
    unfold checkStmt
    split
    · exact .ok _
    · exact .refuse rfl
  | .ret info (some value) =>
    unfold checkStmt
    split
    · refine .bind (checkExpr_agrees value) fun value' _ => ?_
      split
      · exact .ok _
      · exact .refuse rfl
    · exact .refuse rfl
  | .while_ info test body =>
    exact .bind (checkCondition_agrees test) fun test' _ =>
      .bind (checkStmts_agrees body) fun body' _ => .ok _
  | .cond info none body orElse =>
    exact .bind (.ok _) fun test' _ => .bind (checkStmts_agrees body) fun body' _ =>
      .bind (checkArm_agrees orElse) fun orElse' _ => .ok _
  | .cond info (some test) body orElse =>
    have htest : Agrees (some <$> checkCondition scope .conditional test) :=
      .bind (checkCondition_agrees test) fun test' _ => .ok _
    exact .bind htest fun test' _ => .bind (checkStmts_agrees body) fun body' _ =>
      .bind (checkArm_agrees orElse) fun orElse' _ => .ok _
  | .pass info => exact .ok _

theorem checkStmts_agrees (body : List (Stmt α)) : Agrees (checkStmts scope body) := by
  match body with
  | [] => exact .ok _
  | s :: rest =>
    exact .bind (checkStmt_agrees s) fun first _ => .bind (checkStmts_agrees rest) fun others _ =>
      .ok _

theorem checkArm_agrees (arm : Option (Stmt α)) : Agrees (checkArm scope arm) := by
  match arm with
  | none => exact .ok _
  | some next => exact .bind (checkStmt_agrees next) fun next' _ => .ok _

end

/-! ## Definitions -/

theorem checkVarDef_agrees (v : VarDef α) : Agrees (checkVarDef v) := by
  unfold checkVarDef
  split
  · exact .ok _
  · exact .refuse rfl

theorem checkGlobals_agrees (vs : List (VarDef α)) : Agrees (checkGlobals scope vs) := by
  induction vs generalizing scope with
  | nil => exact .ok _
  | cons v rest ih =>
    unfold checkGlobals
    split
    · exact .refuse rfl
    split
    · exact .refuse rfl
    · exact .bind (checkVarDef_agrees v) fun first _ => .bind ih fun others _ => .ok _

theorem declareFunctions_agrees (fs : List (FuncDef α)) : Agrees (declareFunctions scope fs) := by
  induction fs generalizing scope with
  | nil => exact .ok _
  | cons f rest ih =>
    unfold declareFunctions
    split
    · exact .refuse rfl
    split
    · exact .refuse rfl
    split
    · exact .refuse rfl
    · exact ih

/-- Faults about names are no mismatch. -/
theorem declareLocal_agrees {function : Text} {pos : Position} {name : Text} {type : Ty} :
    Agrees (declareLocal scope function pos name type) := by
  unfold declareLocal
  split
  · exact .refuse rfl
  split
  · exact .refuse rfl
  · exact .ok _

theorem checkParams_agrees {function : Text} (ps : List (Param α)) :
    Agrees (checkParams scope function ps) := by
  induction ps generalizing scope with
  | nil => exact .ok _
  | cons p rest ih => exact .bind declareLocal_agrees fun inner _ => .bind ih fun others _ => .ok _

theorem checkLocals_agrees {function : Text} (vs : List (VarDef α)) :
    Agrees (checkLocals scope function vs) := by
  induction vs generalizing scope with
  | nil => exact .ok _
  | cons v rest ih =>
    exact .bind declareLocal_agrees fun inner _ => .bind (checkVarDef_agrees v) fun first _ =>
      .bind ih fun others _ => .ok _

/-- What the body is sure to return is nothing or what the function declares, so that there is no
mismatch. -/
theorem checkFuncDef_agrees (f : FuncDef α) : Agrees (checkFuncDef scope f) := by
  refine .bind (checkParams_agrees f.params) fun ⟨scope₁, params⟩ hparams => ?_
  refine .bind (checkLocals_agrees f.locals) fun ⟨scope₂, locals⟩ hlocals => ?_
  refine .bind (checkStmts_agrees f.stmts) fun stmts hstmts => .bind ?_ fun _ _ => .ok _
  have hfound := (annotated_of_checkStmts f.stmts hstmts).guarantee_cases
  rw [scope_of_checkLocals hparams hlocals] at hfound
  unfold checkGuarantee
  split
  · exact .ok _
  · next hdiffers =>
    -- Then nothing is sure to be returned, and something has to be.
    have hnone := hfound.resolve_right hdiffers
    rw [hnone] at hdiffers ⊢
    rw [if_neg fun hreturns => hdiffers hreturns.symm, if_pos rfl]
    exact .refuse rfl

theorem checkFunctions_agrees (fs : List (FuncDef α)) : Agrees (checkFunctions scope fs) := by
  induction fs with
  | nil => exact .ok _
  | cons f rest ih =>
    exact .bind (checkFuncDef_agrees f) fun first _ => .bind ih fun others _ => .ok _

end Typing

/-- No program is refused because a function is sure to return something else than it declares. -/
theorem check_agrees {α : Type} (p : Program α) : Typing.Agrees p.check :=
  .bind (Typing.checkGlobals_agrees p.globals) fun _ _ =>
    .bind (Typing.declareFunctions_agrees p.functions) fun _ _ =>
      .bind (Typing.checkFunctions_agrees p.functions) fun _ _ =>
        .bind (Typing.checkStmts_agrees p.stmts) fun _ _ => .ok _

end WatCompiler
