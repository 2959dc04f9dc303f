import WatCompiler.Proofs.Basic
import WatCompiler.Typing

/-!
# What accepted code is put together from

An expression or a statement with parts is accepted exactly if its parts are and fit together, and
then it is annotated like this. Every proof about accepted code goes by these equivalences, one for
each sort of expression and statement, and not by the checks.
-/

namespace WatCompiler.Typing

variable {α : Type} {scope : Scope} {info : Info α}

-- The equations of the checks are derived here, once, and not by each of the proofs below.
attribute [local simp] checkExpr checkArgs checkStmt checkStmts checkArm

/-! ## Expressions -/

section Expressions

variable {e' : Expr Ty}

/-- A variable has the type that it is found with. -/
theorem checkExpr_ident_eq_ok {name : Text} :
    checkExpr scope (.ident info name) = .ok e' ↔
      ∃ type, scope.lookup? name = some type ∧ .ident ⟨type, info.pos⟩ name = e' := by
  rw [checkExpr]
  cases scope.lookup? name <;> simp [refuse]

/-- The operand has the type that the operator asks for. -/
theorem checkExpr_unary_eq_ok {op : UnaryOp} {arg : Expr α} :
    checkExpr scope (.unary info op arg) = .ok e' ↔
      ∃ arg', checkExpr scope arg = .ok arg' ∧ op.type? = some arg'.info.ann ∧
        .unary ⟨arg'.info.ann, info.pos⟩ op arg' = e' := by
  rw [checkExpr, bind_eq_ok]
  refine exists_congr fun arg' => and_congr_right fun _ => ?_
  cases op.type? with
  | none => simp [refuse]
  | some type =>
    by_cases htype : arg'.info.ann = type
    · simp [htype, pure_eq_ok]
    · simp [htype, refuse, Ne.symm htype]

/-- The operands have one type, for which the operator has a result. -/
theorem checkExpr_binary_eq_ok {op : BinaryOp} {lhs rhs : Expr α} :
    checkExpr scope (.binary info op lhs rhs) = .ok e' ↔
      ∃ lhs', checkExpr scope lhs = .ok lhs' ∧ ∃ rhs', checkExpr scope rhs = .ok rhs' ∧
        lhs'.info.ann = rhs'.info.ann ∧ ∃ type, op.resultType? lhs'.info.ann = some type ∧
          .binary ⟨type, info.pos⟩ op lhs' rhs' = e' := by
  rw [checkExpr, bind_eq_ok]
  refine exists_congr fun lhs' => and_congr_right fun _ => ?_
  rw [bind_eq_ok]
  refine exists_congr fun rhs' => and_congr_right fun _ => ?_
  by_cases hsame : lhs'.info.ann = rhs'.info.ann
  · simp only [hsame, if_true, true_and]
    cases op.resultType? rhs'.info.ann <;> simp [refuse, pure_eq_ok]
  · simp [hsame, refuse]

theorem checkExpr_paren_eq_ok {arg : Expr α} :
    checkExpr scope (.paren info arg) = .ok e' ↔
      ∃ arg', checkExpr scope arg = .ok arg' ∧ .paren ⟨arg'.info.ann, info.pos⟩ arg' = e' := by
  rw [checkExpr]
  simp only [bind_eq_ok, pure_eq_ok]

/-- As many arguments as parameters, and they fit them. -/
theorem checkExpr_call_eq_ok {function : Text} {args : List (Expr α)} :
    checkExpr scope (.call info function args) = .ok e' ↔
      ∃ signature, scope.functions.find? function = some signature ∧
        signature.params.length = args.length ∧
        ∃ args', checkArgs scope function 1 signature.params args = .ok args' ∧
          .call ⟨signature.returns, info.pos⟩ function args' = e' := by
  rw [checkExpr]
  cases scope.functions.find? function with
  | none => simp [refuse]
  | some signature =>
    simp only [Option.some.injEq, exists_eq_left', ne_eq, ite_not]
    by_cases hlen : signature.params.length = args.length
    · simp only [hlen, if_true, bind_eq_ok, pure_eq_ok, true_and]
    · simp [hlen, refuse]

/-- An argument has the type of its parameter, unless that takes anything. -/
theorem checkArgs_cons_eq_ok {function : Text} {number : Nat} {params : List Ty} {arg : Expr α}
    {rest : List (Expr α)} {args' : List (Expr Ty)} :
    checkArgs scope function number params (arg :: rest) = .ok args' ↔
      ∃ first, checkExpr scope arg = .ok first ∧
        (params.headD .any ≠ .any → first.info.ann = params.headD .any) ∧
        ∃ others, checkArgs scope function (number + 1) params.tail rest = .ok others ∧
          first :: others = args' := by
  rw [checkArgs, bind_eq_ok]
  refine exists_congr fun first => and_congr_right fun _ => ?_
  by_cases htype : params.headD .any ≠ .any → first.info.ann = params.headD .any
  · rw [if_neg fun hwrong => hwrong.2 (htype hwrong.1), bind_eq_ok]
    simp only [pure_eq_ok]
    exact (and_iff_right htype).symm
  · rw [if_pos (Classical.not_imp.mp htype)]
    exact iff_of_false (fun h => by cases h) fun h => htype h.1

/-- A condition is a truth value. -/
theorem checkCondition_eq_ok {construct : Construct} {test : Expr α} {test' : Expr Ty} :
    checkCondition scope construct test = .ok test' ↔
      checkExpr scope test = .ok test' ∧ test'.info.ann = .bool := by
  rw [checkCondition, bind_eq_ok]
  constructor
  · rintro ⟨checked, hchecked, h⟩
    split at h
    · next hann =>
      cases h
      exact ⟨hchecked, hann⟩
    · cases h
  · rintro ⟨hchecked, hann⟩
    exact ⟨test', hchecked, if_pos hann⟩

end Expressions

/-! ## Statements -/

section Statements

variable {s' : Stmt Ty}

/-- The value has the type of the variable. -/
theorem checkStmt_assign_eq_ok {target : Text} {value : Expr α} :
    checkStmt scope (.assign info target value) = .ok s' ↔
      ∃ value', assignable scope info.pos target = .ok value'.info.ann ∧
        checkExpr scope value = .ok value' ∧ .assign ⟨.none, info.pos⟩ target value' = s' := by
  rw [checkStmt]
  simp only [bind_eq_ok]
  constructor
  · rintro ⟨type, htype, value', hvalue, h⟩
    split at h
    · next hann =>
      cases h
      exact ⟨value', hann ▸ htype, hvalue, rfl⟩
    · cases h
  · rintro ⟨value', htype, hvalue, rfl⟩
    exact ⟨_, htype, value', hvalue, if_pos rfl⟩

theorem checkStmt_expr_eq_ok {value : Expr α} :
    checkStmt scope (.expr info value) = .ok s' ↔
      ∃ value', checkExpr scope value = .ok value' ∧ .expr ⟨.none, info.pos⟩ value' = s' := by
  rw [checkStmt]
  simp only [bind_eq_ok, pure_eq_ok]

/-- A return without a value passes in every function. -/
theorem checkStmt_bare_eq_ok :
    checkStmt scope (.ret info none) = .ok s' ↔
      scope.inFunction = true ∧ .ret ⟨.none, info.pos⟩ none = s' := by
  rw [checkStmt]
  cases scope.inFunction <;> simp [refuse]

/-- A value that is returned has the type that the function declares. -/
theorem checkStmt_ret_eq_ok {value : Expr α} :
    checkStmt scope (.ret info (some value)) = .ok s' ↔
      scope.inFunction = true ∧ ∃ value', checkExpr scope value = .ok value' ∧
        value'.info.ann = scope.returns ∧ .ret ⟨scope.returns, info.pos⟩ (some value') = s' := by
  rw [checkStmt]
  by_cases hfunction : scope.inFunction = true
  · rw [if_pos hfunction]
    simp only [bind_eq_ok, hfunction, true_and]
    refine exists_congr fun value' => and_congr_right fun _ => ?_
    by_cases hann : value'.info.ann = scope.returns <;> simp [hann, refuse, pure_eq_ok]
  · rw [if_neg hfunction]
    simp [hfunction, refuse]

theorem checkStmt_while_eq_ok {test : Expr α} {body : List (Stmt α)} :
    checkStmt scope (.while_ info test body) = .ok s' ↔
      ∃ test', checkCondition scope .loop test = .ok test' ∧
        ∃ body', checkStmts scope body = .ok body' ∧
          .while_ ⟨.none, info.pos⟩ test' body' = s' := by
  rw [checkStmt]
  simp only [bind_eq_ok, pure_eq_ok]

/-- An arm without a test. -/
theorem checkStmt_else_eq_ok {body : List (Stmt α)} {orElse : Option (Stmt α)} :
    checkStmt scope (.cond info none body orElse) = .ok s' ↔
      ∃ body', checkStmts scope body = .ok body' ∧ ∃ orElse', checkArm scope orElse = .ok orElse' ∧
        .cond ⟨armGuarantee none body' orElse', info.pos⟩ none body' orElse' = s' := by
  rw [checkStmt, pure_bind]
  simp only [bind_eq_ok, pure_eq_ok]

/-- An arm with a test. -/
theorem checkStmt_cond_eq_ok {test : Expr α} {body : List (Stmt α)} {orElse : Option (Stmt α)} :
    checkStmt scope (.cond info (some test) body orElse) = .ok s' ↔
      ∃ test', checkCondition scope .conditional test = .ok test' ∧
        ∃ body', checkStmts scope body = .ok body' ∧
          ∃ orElse', checkArm scope orElse = .ok orElse' ∧
          .cond ⟨armGuarantee (some test') body' orElse', info.pos⟩ (some test') body' orElse' =
            s' := by
  rw [checkStmt, bind_map_left]
  simp only [bind_eq_ok, pure_eq_ok]

theorem checkStmts_cons_eq_ok {s : Stmt α} {rest : List (Stmt α)} {body' : List (Stmt Ty)} :
    checkStmts scope (s :: rest) = .ok body' ↔
      ∃ first, checkStmt scope s = .ok first ∧ ∃ others, checkStmts scope rest = .ok others ∧
        first :: others = body' := by
  rw [checkStmts]
  simp only [bind_eq_ok, pure_eq_ok]

theorem checkArm_some_eq_ok {s : Stmt α} {orElse' : Option (Stmt Ty)} :
    checkArm scope (some s) = .ok orElse' ↔
      ∃ next, checkStmt scope s = .ok next ∧ some next = orElse' := by
  rw [checkArm]
  simp only [bind_eq_ok, pure_eq_ok]

end Statements

/-! ## Definitions -/

section Definitions

variable {function : Text} {scope' : Scope}

/-- The initial value has the declared type. -/
theorem checkVarDef_eq_ok {v : VarDef α} {v' : VarDef Ty} :
    checkVarDef v = .ok v' ↔
      v.literal.type = v.type ∧
        ⟨⟨v.type, v.info.pos⟩, v.name, v.type, ⟨v.literal.type, v.literalInfo.pos⟩, v.literal⟩ =
          v' := by
  rw [checkVarDef]
  by_cases htype : v.literal.type = v.type <;> simp [htype, refuse]

/-- Each parameter is in scope for those behind it. -/
theorem checkParams_cons_eq_ok {p : Param α} {rest : List (Param α)} {ps' : List (Param Ty)} :
    checkParams scope function (p :: rest) = .ok (scope', ps') ↔
      ∃ inner, declareLocal scope function p.info.pos p.name p.type = .ok inner ∧
        ∃ others, checkParams inner function rest = .ok (scope', others) ∧
          ⟨⟨p.type, p.info.pos⟩, p.name, p.type⟩ :: others = ps' := by
  rw [checkParams]
  simp only [bind_eq_ok, pure_eq_ok, Prod.exists, Prod.mk.injEq]
  constructor
  · rintro ⟨inner, hinner, _, others, hothers, rfl, h⟩
    exact ⟨inner, hinner, others, hothers, h⟩
  · rintro ⟨inner, hinner, others, hothers, h⟩
    exact ⟨inner, hinner, scope', others, hothers, rfl, h⟩

theorem checkLocals_cons_eq_ok {v : VarDef α} {rest : List (VarDef α)} {vs' : List (VarDef Ty)} :
    checkLocals scope function (v :: rest) = .ok (scope', vs') ↔
      ∃ inner, declareLocal scope function v.info.pos v.name v.type = .ok inner ∧
        ∃ first, checkVarDef v = .ok first ∧
          ∃ others, checkLocals inner function rest = .ok (scope', others) ∧
            first :: others = vs' := by
  rw [checkLocals]
  simp only [bind_eq_ok, pure_eq_ok, Prod.exists, Prod.mk.injEq]
  constructor
  · rintro ⟨inner, hinner, first, hfirst, _, others, hothers, rfl, h⟩
    exact ⟨inner, hinner, first, hfirst, others, hothers, h⟩
  · rintro ⟨inner, hinner, first, hfirst, others, hothers, h⟩
    exact ⟨inner, hinner, first, hfirst, scope', others, hothers, rfl, h⟩

/-- A function returns what it declares. -/
theorem checkGuarantee_eq_ok {f : FuncDef α} {found : Ty} {u : Unit} :
    checkGuarantee f found = .ok u ↔ found = f.returns := by
  rw [checkGuarantee]
  by_cases hfound : found = f.returns
  · rw [if_pos hfound]
    exact iff_of_true rfl hfound
  · rw [if_neg hfound]
    refine iff_of_false ?_ hfound
    split_ifs <;> exact fun h => by cases h

/-- The statements are checked in the scope that the parameters and local variables make. -/
theorem checkFuncDef_eq_ok {f : FuncDef α} {f' : FuncDef Ty} :
    checkFuncDef scope f = .ok f' ↔
      ∃ scope₁ params, checkParams (scope.enter f.returns) f.name f.params = .ok (scope₁, params) ∧
        ∃ scope₂ locals, checkLocals scope₁ f.name f.locals = .ok (scope₂, locals) ∧
          ∃ stmts, checkStmts scope₂ f.stmts = .ok stmts ∧ guarantee stmts = f.returns ∧
            ⟨f.pos, f.name, params, f.returns, ⟨guarantee stmts, f.bodyInfo.pos⟩, locals, stmts⟩ =
              f' := by
  rw [checkFuncDef]
  simp only [bind_eq_ok, pure_eq_ok, Prod.exists, checkGuarantee_eq_ok, exists_const]

end Definitions

end WatCompiler.Typing
