import WatCompiler.Proofs.Program.Erasure
import WatCompiler.Proofs.Typing.WellTyped

/-!
# Checking only annotates

Checking never looks at the annotations that a program has (`check_erase`), and all that it changes
are annotations (`erase_of_check`). So a checked program, checked again, is the same program with
the same annotations (`check_annotates`): without its annotations it is the program that was checked
first.

Both facts are one induction over the code each, in the scope in which the code is checked.
-/

namespace WatCompiler

namespace Typing

variable {α : Type}

/-! ## Annotations are not looked at -/

section Blind

mutual

/-- Checking an expression does not look at its annotations. -/
theorem checkExpr_erase (scope : Scope) (e : Expr α) :
    checkExpr scope e.erase = checkExpr scope e := by
  match e with
  | .literal info value => rfl
  | .ident info name => rfl
  | .unary info op arg =>
    rw [Expr.erase, checkExpr, checkExpr, checkExpr_erase scope arg]
    rfl
  | .binary info op lhs rhs =>
    rw [Expr.erase, checkExpr, checkExpr, checkExpr_erase scope lhs, checkExpr_erase scope rhs]
    rfl
  | .paren info arg =>
    rw [Expr.erase, checkExpr, checkExpr, checkExpr_erase scope arg]
    rfl
  | .call info function args =>
    simp only [Expr.erase, checkExpr, Expr.length_eraseAll, checkArgs_erase scope args,
      Info.erase_pos]

theorem checkArgs_erase (scope : Scope) (args : List (Expr α)) (function : Text) (number : Nat)
    (params : List Ty) :
    checkArgs scope function number params (Expr.eraseAll args) =
      checkArgs scope function number params args := by
  match args with
  | [] => rfl
  | e :: rest =>
    simp only [Expr.eraseAll, checkArgs, checkExpr_erase scope e, checkArgs_erase scope rest,
      Expr.erase_info, Info.erase_pos]

end

theorem checkCondition_erase (scope : Scope) (construct : Construct) (test : Expr α) :
    checkCondition scope construct test.erase = checkCondition scope construct test := by
  rw [checkCondition, checkCondition, checkExpr_erase, Expr.erase_info, Info.erase_pos]

mutual

/-- Checking a statement does not look at its annotations. -/
theorem checkStmt_erase (scope : Scope) (s : Stmt α) :
    checkStmt scope s.erase = checkStmt scope s := by
  match s with
  | .assign info target value =>
    rw [Stmt.erase, checkStmt, checkStmt, checkExpr_erase]
    rfl
  | .expr info value =>
    rw [Stmt.erase, checkStmt, checkStmt, checkExpr_erase]
    rfl
  | .ret info none => rfl
  | .ret info (some value) =>
    simp only [Stmt.erase, Option.map_some, checkStmt, checkExpr_erase, Info.erase_pos]
  | .while_ info test body =>
    rw [Stmt.erase, checkStmt, checkStmt, checkCondition_erase, checkStmts_erase scope body]
    rfl
  | .cond info none body orElse =>
    simp only [Stmt.erase, Option.map_none, checkStmt, checkStmts_erase scope body,
      checkArm_erase scope orElse, Info.erase_pos]
  | .cond info (some test) body orElse =>
    simp only [Stmt.erase, Option.map_some, checkStmt, checkCondition_erase,
      checkStmts_erase scope body, checkArm_erase scope orElse, Info.erase_pos]
  | .pass info => rfl

theorem checkStmts_erase (scope : Scope) (body : List (Stmt α)) :
    checkStmts scope (Stmt.eraseAll body) = checkStmts scope body := by
  match body with
  | [] => rfl
  | s :: rest =>
    rw [Stmt.eraseAll, checkStmts, checkStmts, checkStmt_erase scope s, checkStmts_erase scope rest]

theorem checkArm_erase (scope : Scope) (orElse : Option (Stmt α)) :
    checkArm scope (Stmt.eraseArm orElse) = checkArm scope orElse := by
  match orElse with
  | none => rfl
  | some arm => rw [Stmt.eraseArm, checkArm, checkArm, checkStmt_erase scope arm]

end

/-- Checking definitions does not look at annotations. -/
theorem checkGlobals_erase (scope : Scope) (vs : List (VarDef α)) :
    checkGlobals scope (vs.map VarDef.erase) = checkGlobals scope vs := by
  induction vs generalizing scope with
  | nil => rfl
  | cons v rest ih =>
    rw [List.map_cons, checkGlobals, checkGlobals, ih]
    rfl

theorem declareFunctions_erase (scope : Scope) (fs : List (FuncDef α)) :
    declareFunctions scope (fs.map FuncDef.erase) = declareFunctions scope fs := by
  induction fs generalizing scope with
  | nil => rfl
  | cons f rest ih =>
    -- A function is declared with the types of its parameters, which are no annotations.
    have hparams : f.erase.params.map Param.type = f.params.map Param.type := List.map_map
    rw [List.map_cons, declareFunctions, declareFunctions, hparams, ih]
    rfl

theorem checkParams_erase (scope : Scope) (function : Text) (ps : List (Param α)) :
    checkParams scope function (ps.map Param.erase) = checkParams scope function ps := by
  induction ps generalizing scope with
  | nil => rfl
  | cons p rest ih =>
    simp only [List.map_cons, checkParams, ih]
    rfl

theorem checkLocals_erase (scope : Scope) (function : Text) (vs : List (VarDef α)) :
    checkLocals scope function (vs.map VarDef.erase) = checkLocals scope function vs := by
  induction vs generalizing scope with
  | nil => rfl
  | cons v rest ih =>
    simp only [List.map_cons, checkLocals, ih]
    rfl

/-- Checking a function does not look at its annotations. -/
theorem checkFuncDef_erase (scope : Scope) (f : FuncDef α) :
    checkFuncDef scope f.erase = checkFuncDef scope f := by
  simp only [checkFuncDef, FuncDef.erase, checkParams_erase, checkLocals_erase, checkStmts_erase]
  rfl

theorem checkFunctions_erase (scope : Scope) (fs : List (FuncDef α)) :
    checkFunctions scope (fs.map FuncDef.erase) = checkFunctions scope fs := by
  induction fs with
  | nil => rfl
  | cons f rest ih => rw [List.map_cons, checkFunctions, checkFunctions, checkFuncDef_erase, ih]

end Blind

/-! ## Nothing else changes -/

section Erasure

variable {scope : Scope}

mutual

/-- A checked expression differs in annotations only. -/
theorem erase_of_checkExpr (e : Expr α) {e' : Expr Ty} (h : checkExpr scope e = .ok e') :
    e'.erase = e.erase := by
  match e with
  | .literal info value =>
    cases h
    rfl
  | .ident info name =>
    obtain ⟨type, -, rfl⟩ := checkExpr_ident_eq_ok.mp h
    rfl
  | .unary info op arg =>
    obtain ⟨arg', harg, -, rfl⟩ := checkExpr_unary_eq_ok.mp h
    rw [Expr.erase, erase_of_checkExpr arg harg]
    rfl
  | .binary info op lhs rhs =>
    obtain ⟨lhs', hlhs, rhs', hrhs, -, type, -, rfl⟩ := checkExpr_binary_eq_ok.mp h
    rw [Expr.erase, erase_of_checkExpr lhs hlhs, erase_of_checkExpr rhs hrhs]
    rfl
  | .paren info arg =>
    obtain ⟨arg', harg, rfl⟩ := checkExpr_paren_eq_ok.mp h
    rw [Expr.erase, erase_of_checkExpr arg harg]
    rfl
  | .call info function args =>
    obtain ⟨signature, -, -, args', hargs, rfl⟩ := checkExpr_call_eq_ok.mp h
    rw [Expr.erase, eraseAll_of_checkArgs args hargs]
    rfl

theorem eraseAll_of_checkArgs (args : List (Expr α)) {function : Text} {number : Nat}
    {params : List Ty} {args' : List (Expr Ty)}
    (h : checkArgs scope function number params args = .ok args') :
    Expr.eraseAll args' = Expr.eraseAll args := by
  match args with
  | [] =>
    cases h
    rfl
  | e :: rest =>
    obtain ⟨first, hfirst, -, others, hothers, rfl⟩ := checkArgs_cons_eq_ok.mp h
    rw [Expr.eraseAll, Expr.eraseAll, erase_of_checkExpr e hfirst,
      eraseAll_of_checkArgs rest hothers]

end

theorem erase_of_checkCondition {construct : Construct} {test : Expr α} {test' : Expr Ty}
    (h : checkCondition scope construct test = .ok test') : test'.erase = test.erase :=
  erase_of_checkExpr test (checkCondition_eq_ok.mp h).1

mutual

/-- A checked statement differs in annotations only. -/
theorem erase_of_checkStmt (s : Stmt α) {s' : Stmt Ty} (h : checkStmt scope s = .ok s') :
    s'.erase = s.erase := by
  match s with
  | .assign info target value =>
    obtain ⟨value', -, hvalue, rfl⟩ := checkStmt_assign_eq_ok.mp h
    rw [Stmt.erase, erase_of_checkExpr value hvalue]
    rfl
  | .expr info value =>
    obtain ⟨value', hvalue, rfl⟩ := checkStmt_expr_eq_ok.mp h
    rw [Stmt.erase, erase_of_checkExpr value hvalue]
    rfl
  | .ret info none =>
    obtain ⟨-, rfl⟩ := checkStmt_bare_eq_ok.mp h
    rfl
  | .ret info (some value) =>
    obtain ⟨-, value', hvalue, -, rfl⟩ := checkStmt_ret_eq_ok.mp h
    rw [Stmt.erase, Option.map_some, erase_of_checkExpr value hvalue]
    rfl
  | .while_ info test body =>
    obtain ⟨test', htest, body', hbody, rfl⟩ := checkStmt_while_eq_ok.mp h
    rw [Stmt.erase, erase_of_checkCondition htest, eraseAll_of_checkStmts body hbody]
    rfl
  | .cond info none body orElse =>
    obtain ⟨body', hbody, orElse', horElse, rfl⟩ := checkStmt_else_eq_ok.mp h
    rw [Stmt.erase, eraseAll_of_checkStmts body hbody, eraseArm_of_checkArm orElse horElse]
    rfl
  | .cond info (some test) body orElse =>
    obtain ⟨test', htest, body', hbody, orElse', horElse, rfl⟩ := checkStmt_cond_eq_ok.mp h
    rw [Stmt.erase, Option.map_some, erase_of_checkCondition htest,
      eraseAll_of_checkStmts body hbody, eraseArm_of_checkArm orElse horElse]
    rfl
  | .pass info =>
    cases h
    rfl

theorem eraseAll_of_checkStmts (body : List (Stmt α)) {body' : List (Stmt Ty)}
    (h : checkStmts scope body = .ok body') : Stmt.eraseAll body' = Stmt.eraseAll body := by
  match body with
  | [] =>
    cases h
    rfl
  | s :: rest =>
    obtain ⟨first, hfirst, others, hothers, rfl⟩ := checkStmts_cons_eq_ok.mp h
    rw [Stmt.eraseAll, Stmt.eraseAll, erase_of_checkStmt s hfirst,
      eraseAll_of_checkStmts rest hothers]

theorem eraseArm_of_checkArm (orElse : Option (Stmt α)) {orElse' : Option (Stmt Ty)}
    (h : checkArm scope orElse = .ok orElse') : Stmt.eraseArm orElse' = Stmt.eraseArm orElse := by
  match orElse with
  | none =>
    cases h
    rfl
  | some arm =>
    obtain ⟨arm', harm, rfl⟩ := checkArm_some_eq_ok.mp h
    rw [Stmt.eraseArm, Stmt.eraseArm, erase_of_checkStmt arm harm]

end

/-- A checked definition differs in annotations only. -/
theorem erase_of_checkVarDef {v : VarDef α} {v' : VarDef Ty} (h : checkVarDef v = .ok v') :
    v'.erase = v.erase := by
  obtain ⟨-, rfl⟩ := checkVarDef_eq_ok.mp h
  rfl

/-- Checked parameters differ in annotations only. -/
theorem erase_of_checkParams {function : Text} {ps : List (Param α)} {scope' : Scope}
    {ps' : List (Param Ty)} (h : checkParams scope function ps = .ok (scope', ps')) :
    ps'.map Param.erase = ps.map Param.erase := by
  induction ps generalizing scope ps' with
  | nil =>
    cases h
    rfl
  | cons p rest ih =>
    obtain ⟨inner, -, others, hothers, rfl⟩ := checkParams_cons_eq_ok.mp h
    rw [List.map_cons, List.map_cons, ih hothers]
    rfl

theorem erase_of_checkLocals {function : Text} {vs : List (VarDef α)} {scope' : Scope}
    {vs' : List (VarDef Ty)} (h : checkLocals scope function vs = .ok (scope', vs')) :
    vs'.map VarDef.erase = vs.map VarDef.erase := by
  induction vs generalizing scope vs' with
  | nil =>
    cases h
    rfl
  | cons v rest ih =>
    obtain ⟨inner, -, first, hfirst, others, hothers, rfl⟩ := checkLocals_cons_eq_ok.mp h
    rw [List.map_cons, List.map_cons, erase_of_checkVarDef hfirst, ih hothers]

/-- A checked function differs in annotations only. -/
theorem erase_of_checkFuncDef {f : FuncDef α} {f' : FuncDef Ty}
    (h : checkFuncDef scope f = .ok f') : f'.erase = f.erase := by
  obtain ⟨scope₁, params, hparams, scope₂, locals, hlocals, stmts, hstmts, -, rfl⟩ :=
    checkFuncDef_eq_ok.mp h
  simp only [FuncDef.erase, erase_of_checkParams hparams, erase_of_checkLocals hlocals,
    eraseAll_of_checkStmts f.stmts hstmts]
  rfl

end Erasure

end Typing

variable {α : Type}

/-- Checking does not look at annotations. -/
theorem check_erase (p : Program α) : p.erase.check = p.check := by
  simp only [Program.check, Program.erase, Typing.checkGlobals_erase, Typing.declareFunctions_erase,
    Typing.checkFunctions_erase, Typing.checkStmts_erase]

/-- Checking changes annotations only. -/
theorem erase_of_check {p : Program α} {q : Program Ty} (h : p.check = .ok q) :
    q.erase = p.erase := by
  obtain ⟨-, hglobals, hfunctions, hstmts⟩ := check_eq_ok_iff.mp h
  rw [Program.erase, Program.erase, Typing.eraseAll_of_checkStmts p.stmts hstmts,
    Typing.map_eq_map_of_map_eq_ok hglobals fun _ _ => Typing.erase_of_checkVarDef,
    Typing.map_eq_map_of_map_eq_ok hfunctions fun _ _ => Typing.erase_of_checkFuncDef]

/-- **Checking only annotates, and once is enough.** Whatever the annotations of a program are, if
checking accepts it, the checked program differs in annotations only, and checking it again gives
exactly the same program. The dump of the checked program without its tags is the dump of the
program without annotations. -/
theorem check_annotates {p : Program α} {q : Program Ty} (h : p.check = .ok q) :
    q.erase = p.erase ∧ q.check = .ok q ∧ q.toDatum.untagged = p.erase.toDatum ∧
      WithoutTags q.dump p.erase.dump := by
  have herase := erase_of_check h
  refine ⟨herase, ?_, ?_, ?_⟩
  · calc q.check = q.erase.check := (check_erase q).symm
      _ = p.erase.check := by rw [herase]
      _ = p.check := check_erase p
      _ = .ok q := h
  · rw [Program.untagged_toDatum, herase]
  · rw [← herase]
    exact withoutTags_dump q

/-- A program with a function, a loop and a conditional, all of whose annotations are wrong. -/
def staleProgram : Program Ty where
  functions := [{
    pos := .unknown, name := "f", params := [⟨stale, "a", .int⟩], returns := .int,
    bodyInfo := stale, locals := [⟨stale, "b", .bool, stale, .false⟩],
    stmts := [
      .while_ stale (.unary stale .not (.ident stale "b"))
        [.assign stale "b" (.literal stale .true)],
      .cond stale
        (some (.binary stale .less (.ident stale "a") (.literal stale (.number 0))))
        [.ret stale (some (.unary stale .negate (.paren stale (.ident stale "a"))))]
        (some (.cond stale none [.ret stale (some (.ident stale "a"))] none))] }]
  globals := [⟨stale, "x", .int, stale, .number 5⟩]
  stmts := [.expr stale (.call stale "print" [.call stale "f" [.ident stale "x"]])]
where
  stale : Info Ty := ⟨.any, .unknown⟩

/-- The wrong annotations are replaced. -/
theorem check_annotates_staleProgram :
    ∃ q, staleProgram.check = .ok q ∧
      q.functions.map (fun f => f.stmts.map fun s => s.info.ann) = [[.none, .int]] ∧
      q.erase = staleProgram.erase ∧ q.check = .ok q ∧
      q.toDatum.untagged = staleProgram.erase.toDatum ∧
      WithoutTags q.dump staleProgram.erase.dump := by
  have hchecked : staleProgram.check.toOption.map
      (fun q => q.functions.map fun f => f.stmts.map fun s => s.info.ann) =
        some [[.none, .int]] := by
    decide +kernel
  obtain ⟨q, hq, hanns⟩ := toOption_map_eq_some.mp hchecked
  exact ⟨q, hq, hanns, check_annotates hq⟩

end WatCompiler
