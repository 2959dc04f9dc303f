import WatCompiler.Proofs.Typing.WellTyped

/-!
# The order of definitions

Whether a program passes the check, and with which annotations, does not depend on the order of its
definitions (`check_of_reorders`). Scopes that give every name the same meaning accept the same
parts of a program (`Scope.Alike`), and definitions in another order make such a scope.
-/

namespace WatCompiler

/-- Two scopes give every name the same meaning. -/
structure Scope.Alike (scope scope' : Scope) : Prop where
  globals : scope.globals.Alike scope'.globals
  functions : scope.functions.Alike scope'.functions
  locals : scope.locals = scope'.locals
  returns : scope.returns = scope'.returns

namespace Scope.Alike

variable {scope scope' : Scope}

theorem local? (h : scope.Alike scope') (name : Text) : scope.local? name = scope'.local? name := by
  rw [Scope.local?, Scope.local?, h.locals]

/-- Scopes that are alike give every name the same type. -/
theorem lookup? (h : scope.Alike scope') (name : Text) :
    scope.lookup? name = scope'.lookup? name := by
  rw [Scope.lookup?, Scope.lookup?, h.local? name, h.globals name]

theorem inFunction (h : scope.Alike scope') : scope.inFunction = scope'.inFunction := by
  rw [Scope.inFunction, Scope.inFunction, h.locals]

end Scope.Alike

namespace Typing

variable {α : Type} {scope scope' : Scope}

/-! ## Scopes that are alike -/

section Alike

mutual

/-- An expression is checked alike in scopes that are alike. -/
theorem checkExpr_alike (h : scope.Alike scope') (e : Expr α) :
    checkExpr scope e = checkExpr scope' e := by
  match e with
  | .literal info value => rfl
  | .ident info name => rw [checkExpr, checkExpr, h.lookup? name]
  | .unary info op arg => rw [checkExpr, checkExpr, checkExpr_alike h arg]
  | .binary info op lhs rhs =>
    rw [checkExpr, checkExpr, checkExpr_alike h lhs, checkExpr_alike h rhs]
  | .paren info arg => rw [checkExpr, checkExpr, checkExpr_alike h arg]
  | .call info function args =>
    simp only [checkExpr, h.functions function, checkArgs_alike h args]

theorem checkArgs_alike (h : scope.Alike scope') (args : List (Expr α)) (function : Text)
    (number : Nat)
    (params : List Ty) :
    checkArgs scope function number params args = checkArgs scope' function number params args := by
  match args with
  | [] => rfl
  | e :: rest => simp only [checkArgs, checkExpr_alike h e, checkArgs_alike h rest]

end

theorem checkCondition_alike (h : scope.Alike scope') (construct : Construct) (test : Expr α) :
    checkCondition scope construct test = checkCondition scope' construct test := by
  rw [checkCondition, checkCondition, checkExpr_alike h]

/-- Whether a variable may be assigned to does not depend on the order of the scope. -/
theorem assignable_alike (h : scope.Alike scope') (pos : Position) (name : Text) :
    assignable scope pos name = assignable scope' pos name := by
  simp only [assignable, h.local? name, h.globals name, h.inFunction]

mutual

/-- A statement is checked alike in scopes that are alike. -/
theorem checkStmt_alike (h : scope.Alike scope') (s : Stmt α) :
    checkStmt scope s = checkStmt scope' s := by
  match s with
  | .assign info target value =>
    rw [checkStmt, checkStmt, assignable_alike h, checkExpr_alike h]
  | .expr info value => rw [checkStmt, checkStmt, checkExpr_alike h]
  | .ret info value => simp only [checkStmt, h.inFunction, h.returns, checkExpr_alike h]
  | .while_ info test body =>
    rw [checkStmt, checkStmt, checkCondition_alike h, checkStmts_alike h body]
  | .cond info test body orElse =>
    simp only [checkStmt, checkCondition_alike h, checkStmts_alike h body, checkArm_alike h orElse]
  | .pass info => rfl

theorem checkStmts_alike (h : scope.Alike scope') (body : List (Stmt α)) :
    checkStmts scope body = checkStmts scope' body := by
  match body with
  | [] => rfl
  | s :: rest => rw [checkStmts, checkStmts, checkStmt_alike h s, checkStmts_alike h rest]

theorem checkArm_alike (h : scope.Alike scope') (orElse : Option (Stmt α)) :
    checkArm scope orElse = checkArm scope' orElse := by
  match orElse with
  | none => rfl
  | some arm => rw [checkArm, checkArm, checkStmt_alike h arm]

end

/-- A name that is declared in both leaves them alike. -/
theorem declareLocal_alike (h : scope.Alike scope') {function : Text} {pos : Position} {name : Text}
    {type : Ty} {inner : Scope} (hok : declareLocal scope function pos name type = .ok inner) :
    ∃ inner', declareLocal scope' function pos name type = .ok inner' ∧ inner.Alike inner' := by
  unfold declareLocal at hok ⊢
  rw [← h.local? name]
  split at hok
  · cases hok
  split at hok
  · cases hok
  next hbuiltin hnew =>
  cases hok
  rw [if_neg hbuiltin, if_neg hnew]
  refine ⟨_, rfl, h.globals, h.functions, ?_, h.returns⟩
  rw [Scope.withLocal, Scope.withLocal, h.locals]

/-- Parameters come into alike scopes alike. -/
theorem checkParams_alike {function : Text} {ps : List (Param α)} {inner : Scope}
    {ps' : List (Param Ty)}
    (h : scope.Alike scope') (hok : checkParams scope function ps = .ok (inner, ps')) :
    ∃ inner', checkParams scope' function ps = .ok (inner', ps') ∧ inner.Alike inner' := by
  induction ps generalizing scope scope' ps' with
  | nil =>
    cases hok
    exact ⟨scope', rfl, h⟩
  | cons p rest ih =>
    obtain ⟨next, hnext, others, hothers, rfl⟩ := checkParams_cons_eq_ok.mp hok
    obtain ⟨next', hnext', hnextAlike⟩ := declareLocal_alike h hnext
    obtain ⟨inner', hothers', halike⟩ := ih hnextAlike hothers
    exact ⟨inner', checkParams_cons_eq_ok.mpr ⟨next', hnext', others, hothers', rfl⟩, halike⟩

theorem checkLocals_alike {function : Text} {vs : List (VarDef α)} {inner : Scope}
    {vs' : List (VarDef Ty)} (h : scope.Alike scope')
    (hok : checkLocals scope function vs = .ok (inner, vs')) :
    ∃ inner', checkLocals scope' function vs = .ok (inner', vs') ∧ inner.Alike inner' := by
  induction vs generalizing scope scope' vs' with
  | nil =>
    cases hok
    exact ⟨scope', rfl, h⟩
  | cons v rest ih =>
    obtain ⟨next, hnext, first, hfirst, others, hothers, rfl⟩ := checkLocals_cons_eq_ok.mp hok
    obtain ⟨next', hnext', hnextAlike⟩ := declareLocal_alike h hnext
    obtain ⟨inner', hothers', halike⟩ := ih hnextAlike hothers
    refine ⟨inner', ?_, halike⟩
    exact checkLocals_cons_eq_ok.mpr ⟨next', hnext', first, hfirst, others, hothers', rfl⟩

/-- A function that is accepted in one is accepted in the other. -/
theorem checkFuncDef_alike (h : scope.Alike scope') {f : FuncDef α} {f' : FuncDef Ty}
    (hok : checkFuncDef scope f = .ok f') : checkFuncDef scope' f = .ok f' := by
  obtain ⟨scope₁, params, hparams, scope₂, locals, hlocals, stmts, hstmts, hsure, rfl⟩ :=
    checkFuncDef_eq_ok.mp hok
  obtain ⟨scope₁', hparams', h₁⟩ := checkParams_alike
    (show (scope.enter f.returns).Alike (scope'.enter f.returns)
      from ⟨h.globals, h.functions, rfl, rfl⟩)
    hparams
  obtain ⟨scope₂', hlocals', h₂⟩ := checkLocals_alike h₁ hlocals
  rw [checkStmts_alike h₂] at hstmts
  exact checkFuncDef_eq_ok.mpr
    ⟨scope₁', params, hparams', scope₂', locals, hlocals', stmts, hstmts, hsure, rfl⟩

end Alike

end Typing

open Typing

variable {α : Type} {p p' : Program α}

/-! ## Definitions in another order -/

/-- The same definitions in another order, and the same statements. -/
structure Program.Reorders (p p' : Program α) : Prop where
  functions : p.functions.Perm p'.functions
  globals : p.globals.Perm p'.globals
  stmts : p.stmts = p'.stmts

namespace Program.Reorders

theorem symm (h : p.Reorders p') : p'.Reorders p :=
  ⟨h.functions.symm, h.globals.symm, h.stmts.symm⟩

theorem scopeGlobals (h : p.Reorders p') : p.scope.globals.Perm p'.scope.globals :=
  h.globals.map _

/-- Reordered programs have the same functions in scope, in another order. -/
theorem scopeFunctions (h : p.Reorders p') : p.scope.functions.Perm p'.scope.functions :=
  (h.functions.map _).append_left builtins

/-- A program has the same names in any order. -/
theorem names (h : p.Reorders p') : p.names.Perm p'.names :=
  (h.scopeGlobals.map _).append (h.scopeFunctions.map _)

/-- Without duplicates, the order of definitions does not matter for the scope. -/
theorem scope_alike (h : p.Reorders p') (hn : p.names.Nodup) : p.scope.Alike p'.scope := by
  obtain ⟨hglobals, hfunctions, -⟩ := List.nodup_append.mp hn
  exact ⟨Table.alike_of_perm hglobals h.scopeGlobals,
    Table.alike_of_perm hfunctions h.scopeFunctions,
    rfl, rfl⟩

end Program.Reorders

/-- A list in another order is accepted with the same answers, each for the same element. -/
theorem zip_perm_of_map_ok {β γ ε : Type} {F : β → Except ε γ} {l l' : List β} (h : l.Perm l')
    {answers : List γ} (hok : l.map F = answers.map .ok) :
    ∃ answers', l'.map F = answers'.map .ok ∧ answers.Perm answers' ∧
      (l.zip answers).Perm (l'.zip answers') := by
  induction h generalizing answers with
  | nil =>
    rw [List.map_nil] at hok
    rw [List.map_eq_nil_iff.mp hok.symm]
    exact ⟨[], rfl, .nil, .nil⟩
  | cons a _ ih =>
    cases answers with
    | nil => cases hok
    | cons b rest =>
      obtain ⟨hfirst, hrest⟩ := List.cons.inj hok
      obtain ⟨rest', hrest', hperm, hzip⟩ := ih hrest
      exact ⟨b :: rest',
        by rw [List.map_cons, List.map_cons, hfirst, hrest'], hperm.cons b, hzip.cons _⟩
  | swap a b l =>
    rcases answers with _ | ⟨c, _ | ⟨d, rest⟩⟩
    · cases hok
    · exact nomatch (List.cons.inj hok).2
    · obtain ⟨hfirst, hmore⟩ := List.cons.inj hok
      obtain ⟨hsecond, hrest⟩ := List.cons.inj hmore
      refine ⟨d :: c :: rest, ?_, .swap d c rest, .swap (a, d) (b, c) (l.zip rest)⟩
      rw [List.map_cons, List.map_cons, List.map_cons, List.map_cons, hfirst, hsecond, hrest]
  | trans _ _ ih ih' =>
    obtain ⟨mid, hmid, hperm, hzip⟩ := ih hok
    obtain ⟨last, hlast, hperm', hzip'⟩ := ih' hmid
    exact ⟨last, hlast, hperm.trans hperm', hzip.trans hzip'⟩

/-- **Checking does not depend on the order of definitions.** In another order the program passes
the check as well, and each of its definitions and statements is annotated as before. -/
theorem check_of_reorders {q : Program Ty} (h : p.Reorders p') (hq : p.check = .ok q) :
    ∃ q', p'.check = .ok q' ∧ q.Reorders q' ∧
      (p.functions.zip q.functions).Perm (p'.functions.zip q'.functions) ∧
      (p.globals.zip q.globals).Perm (p'.globals.zip q'.globals) := by
  obtain ⟨hnodup, hglobals, hfunctions, hstmts⟩ := check_eq_ok_iff.mp hq
  have halike := h.scope_alike hnodup
  obtain ⟨globals, hglobals', hpermGlobals, hzipGlobals⟩ := zip_perm_of_map_ok h.globals hglobals
  obtain ⟨functions, hfunctions', hpermFunctions, hzipFunctions⟩ :=
    zip_perm_of_map_ok h.functions hfunctions
  refine ⟨⟨functions, globals, q.stmts⟩, check_eq_ok_iff.mpr ⟨?_, hglobals', ?_, ?_⟩,
    ⟨hpermFunctions, hpermGlobals, rfl⟩, hzipFunctions, hzipGlobals⟩
  · exact h.names.nodup_iff.mp hnodup
  · rw [← hfunctions']
    -- Only answers that accept a function are known to be the same in the other scope.
    refine List.map_congr_left fun f hf => ?_
    obtain ⟨f', -, hf'⟩ := List.mem_map.mp (hfunctions' ▸ List.mem_map_of_mem hf)
    rw [← hf']
    exact checkFuncDef_alike halike hf'.symm
  · rw [← h.stmts, ← checkStmts_alike halike]
    exact hstmts

end WatCompiler
