import WatCompiler.Proofs.Source.Writing
import WatCompiler.Proofs.Typing.WellTyped
import WatCompiler.Wat.OfProgram

/-!
# Parentheses and positions

A bare program has neither parentheses nor positions. Both are there for the reader: the checker
accepts a program exactly if it accepts the bare one and annotates the two alike (`check_bare`), and
the code of a checked program is that of its bare form (`toWat_bare`). So programs with the same
bare form are compiled to the same module (`toWat_eq_of_bare_eq`).

Code depends on an annotation in one place only, where `print` is told the type of its argument.
What makes this harmless is that a pair of parentheses has the type of what it encloses.
-/

namespace WatCompiler

open Typing

/-! ## Bare programs -/

section Bare

variable {α : Type}

mutual

/-- An expression without parentheses and positions. -/
def Expr.bare : Expr α → Expr α
  | .literal info value => .literal info.unplaced value
  | .ident info name => .ident info.unplaced name
  | .unary info op arg => .unary info.unplaced op arg.bare
  | .binary info op lhs rhs => .binary info.unplaced op lhs.bare rhs.bare
  | .paren _ arg => arg.bare
  | .call info function args => .call info.unplaced function (Expr.allBare args)

/-- Expressions without parentheses and positions. -/
def Expr.allBare : List (Expr α) → List (Expr α)
  | [] => []
  | e :: rest => e.bare :: Expr.allBare rest

end

mutual

/-- A statement without parentheses and positions. -/
def Stmt.bare : Stmt α → Stmt α
  | .assign info target value => .assign info.unplaced target value.bare
  | .expr info value => .expr info.unplaced value.bare
  | .ret info value => .ret info.unplaced (value.map Expr.bare)
  | .while_ info test body => .while_ info.unplaced test.bare (Stmt.allBare body)
  | .cond info test body orElse =>
    .cond info.unplaced (test.map Expr.bare) (Stmt.allBare body) (Stmt.elseBare orElse)
  | .pass info => .pass info.unplaced

/-- Statements without parentheses and positions. -/
def Stmt.allBare : List (Stmt α) → List (Stmt α)
  | [] => []
  | s :: rest => s.bare :: Stmt.allBare rest

/-- The other arms of a conditional without parentheses and positions. -/
def Stmt.elseBare : Option (Stmt α) → Option (Stmt α)
  | none => none
  | some s => some s.bare

end

/-- A function without parentheses and positions. -/
def FuncDef.bare (f : FuncDef α) : FuncDef α :=
  { f with
    pos := .unknown
    params := f.params.map Param.unplaced
    bodyInfo := f.bodyInfo.unplaced
    locals := f.locals.map VarDef.unplaced
    stmts := Stmt.allBare f.stmts }

/-- A program without parentheses and positions. -/
def Program.bare (p : Program α) : Program α :=
  ⟨p.functions.map FuncDef.bare, p.globals.map VarDef.unplaced, Stmt.allBare p.stmts⟩

/-- Bare arguments are as many as there were. -/
theorem Expr.length_allBare (args : List (Expr α)) : (Expr.allBare args).length = args.length := by
  induction args with
  | nil => rfl
  | cons arg rest ih => rw [Expr.allBare, List.length_cons, ih, List.length_cons]

/-- A bare statement keeps its annotation. -/
theorem Stmt.bare_ann (s : Stmt α) : s.bare.info.ann = s.info.ann := by
  cases s <;> rfl

end Bare

/-- Under any number of parentheses a well-typed expression has the type that they have. -/
theorem Expr.WellTyped.bare_ann {scope : Scope} :
    ∀ {e : Expr Ty}, e.WellTyped scope → e.bare.info.ann = e.info.ann
  | .literal .., _ | .ident .., _ | .unary .., _ | .binary .., _ | .call .., _ => rfl
  | .paren .., ⟨harg, hann⟩ => harg.bare_ann.trans hann

/-! ## Checking a bare program -/

namespace Typing

section Mirrors

variable {ε β γ β' γ' : Type}

/-- Two computations end alike: both with a fault, or both well, and `f` makes the second result of
the first. -/
inductive Mirrors (f : β → γ) : Except ε β → Except ε γ → Prop
  | error (e e' : ε) : Mirrors f (.error e) (.error e')
  | ok (b : β) : Mirrors f (.ok b) (.ok (f b))

/-- Computations mirror each other if their first steps do and then what follows each result. -/
theorem Mirrors.bind {f : β → γ} {g : β' → γ'} {x : Except ε β} {y : Except ε γ}
    {k : β → Except ε β'} {k' : γ → Except ε γ'} (h : Mirrors f x y)
    (hk : ∀ b, x = .ok b → Mirrors g (k b) (k' (f b))) : Mirrors g (x >>= k) (y >>= k') := by
  cases h with
  | error e e' => exact .error e e'
  | ok b => exact hk b rfl

/-- Both sides take the same branch. -/
theorem Mirrors.ite {f : β → γ} {c : Prop} [Decidable c] {x x' : Except ε β} {y y' : Except ε γ}
    (h : c → Mirrors f x y) (h' : ¬c → Mirrors f x' y') :
    Mirrors f (if c then x else x') (if c then y else y') := by
  by_cases hc : c
  · rw [if_pos hc, if_pos hc]
    exact h hc
  · rw [if_neg hc, if_neg hc]
    exact h' hc

/-- A result on one side has its mirror image on the other. -/
theorem Mirrors.eq_ok {f : β → γ} {x : Except ε β} {y : Except ε γ} {b : β} (h : Mirrors f x y)
    (hx : x = .ok b) : y = .ok (f b) := by
  subst hx
  cases h
  rfl

/-- Both sides have a result, or neither has one. -/
theorem Mirrors.exists_ok_iff {f : β → γ} {x : Except ε β} {y : Except ε γ} (h : Mirrors f x y) :
    (∃ b, x = .ok b) ↔ ∃ c, y = .ok c := by
  cases h with
  | error e e' => exact ⟨fun ⟨_, h⟩ => (nomatch h), fun ⟨_, h⟩ => (nomatch h)⟩
  | ok b => exact ⟨fun _ => ⟨f b, rfl⟩, fun _ => ⟨b, rfl⟩⟩

end Mirrors

variable {α : Type}

mutual

/-- A bare expression is accepted exactly if the expression is, with bare annotations. -/
theorem checkExpr_bare (scope : Scope) (e : Expr α) :
    Mirrors Expr.bare (checkExpr scope e) (checkExpr scope e.bare) := by
  match e with
  | .literal info value => exact .ok (Expr.literal ⟨value.type, info.pos⟩ value)
  | .ident info name =>
    rw [Expr.bare, checkExpr, checkExpr]
    cases scope.lookup? name with
    | none => exact .error _ _
    | some type => exact .ok (Expr.ident ⟨type, info.pos⟩ name)
  | .unary info op arg =>
    rw [Expr.bare, checkExpr, checkExpr]
    refine (checkExpr_bare scope arg).bind fun arg' harg => ?_
    rw [(wellTyped_of_checkExpr arg harg).bare_ann]
    cases op.type? with
    | none => exact .error _ _
    | some type =>
      exact .ite (fun _ => .ok (Expr.unary ⟨type, info.pos⟩ op arg')) fun _ => .error _ _
  | .binary info op lhs rhs =>
    rw [Expr.bare, checkExpr, checkExpr]
    refine (checkExpr_bare scope lhs).bind fun lhs' hlhs => ?_
    refine (checkExpr_bare scope rhs).bind fun rhs' hrhs => ?_
    rw [(wellTyped_of_checkExpr lhs hlhs).bare_ann, (wellTyped_of_checkExpr rhs hrhs).bare_ann]
    dsimp only
    cases if lhs'.info.ann = rhs'.info.ann then op.resultType? lhs'.info.ann else none with
    | none => exact .error _ _
    | some type => exact .ok (Expr.binary ⟨type, info.pos⟩ op lhs' rhs')
  | .paren info arg =>
    -- Only the first run has a step for the parentheses, and it always ends well.
    rw [Expr.bare, checkExpr]
    have harg := checkExpr_bare scope arg
    generalize checkExpr scope arg = first, checkExpr scope arg.bare = second at harg ⊢
    cases harg with
    | error fault fault' => exact .error fault fault'
    | ok arg' => exact .ok (Expr.paren ⟨arg'.info.ann, info.pos⟩ arg')
  | .call info function args =>
    rw [Expr.bare, checkExpr, checkExpr, Expr.length_allBare]
    cases scope.functions.find? function with
    | none => exact .error _ _
    | some signature =>
      refine .ite (fun _ => .error _ _) fun _ => ?_
      refine (checkArgs_bare scope args function 1 signature.params).bind fun args' _ => ?_
      exact .ok (Expr.call ⟨signature.returns, info.pos⟩ function args')

/-- Arguments are compared with the parameters one by one, and each keeps its type. -/
theorem checkArgs_bare (scope : Scope) (args : List (Expr α)) (function : Text) (number : Nat)
    (params : List Ty) :
    Mirrors Expr.allBare (checkArgs scope function number params args)
      (checkArgs scope function number params (Expr.allBare args)) := by
  match args with
  | [] => exact .ok []
  | arg :: rest =>
    rw [Expr.allBare, checkArgs, checkArgs]
    refine (checkExpr_bare scope arg).bind fun first hfirst => ?_
    rw [(wellTyped_of_checkExpr arg hfirst).bare_ann]
    refine .ite (fun _ => .error _ _) fun _ => ?_
    refine (checkArgs_bare scope rest function (number + 1) params.tail).bind fun others _ => ?_
    exact .ok (first :: others)

end

/-- Parentheses do not keep a condition from being a truth value. -/
theorem checkCondition_bare (scope : Scope) (construct : Construct) (test : Expr α) :
    Mirrors Expr.bare (checkCondition scope construct test)
      (checkCondition scope construct test.bare) := by
  unfold checkCondition
  refine (checkExpr_bare scope test).bind fun checked hchecked => ?_
  rw [(wellTyped_of_checkExpr test hchecked).bare_ann]
  exact .ite (fun _ => .ok checked) fun _ => .error _ _

/-- Whether a name can be assigned to does not depend on the place. -/
theorem assignable_mirrors (scope : Scope) (pos pos' : Position) (name : Text) :
    Mirrors id (assignable scope pos name) (assignable scope pos' name) := by
  unfold assignable
  split
  · exact .ok _
  · split
    · exact .error _ _
    · exact .ok _
  · exact .error _ _

/-- What statements are sure to return is read off their annotations, which stay. -/
theorem guarantee_allBare (body : List (Stmt Ty)) :
    guarantee (Stmt.allBare body) = guarantee body := by
  have hfold : ∀ found, (Stmt.allBare body).foldl
        (fun found s => if s.info.ann = .none then found else s.info.ann) found =
      body.foldl (fun found s => if s.info.ann = .none then found else s.info.ann) found := by
    induction body with
    | nil => exact fun _ => rfl
    | cons s rest ih =>
      intro found
      rw [Stmt.allBare, List.foldl_cons, List.foldl_cons, ih, Stmt.bare_ann]
  exact hfold .none

/-- The same for the arms of a conditional. -/
theorem armGuarantee_bare (test : Option (Expr Ty)) (body : List (Stmt Ty))
    (orElse : Option (Stmt Ty)) :
    armGuarantee (test.map Expr.bare) (Stmt.allBare body) (Stmt.elseBare orElse) =
      armGuarantee test body orElse := by
  cases test with
  | none => exact guarantee_allBare body
  | some test =>
    cases orElse with
    | none => rfl
    | some next =>
      show (if next.bare.info.ann = .none then Ty.none else guarantee (Stmt.allBare body)) = _
      rw [Stmt.bare_ann, guarantee_allBare]
      rfl

mutual

/-- A bare statement is accepted exactly if the statement is. -/
theorem checkStmt_bare (scope : Scope) (s : Stmt α) :
    Mirrors Stmt.bare (checkStmt scope s) (checkStmt scope s.bare) := by
  match s with
  | .assign info target value =>
    rw [Stmt.bare, checkStmt, checkStmt]
    refine (assignable_mirrors scope _ _ target).bind fun type _ => ?_
    refine (checkExpr_bare scope value).bind fun value' hvalue => ?_
    rw [(wellTyped_of_checkExpr value hvalue).bare_ann]
    exact .ite (fun _ => .ok (Stmt.assign ⟨.none, info.pos⟩ target value')) fun _ => .error _ _
  | .expr info value =>
    rw [Stmt.bare, checkStmt, checkStmt]
    refine (checkExpr_bare scope value).bind fun value' _ => ?_
    exact .ok (Stmt.expr ⟨.none, info.pos⟩ value')
  | .ret info value =>
    simp only [Stmt.bare, checkStmt]
    refine .ite (fun _ => ?_) fun _ => .error _ _
    cases value with
    | none => exact .ok (Stmt.ret ⟨Ty.none, info.pos⟩ none)
    | some value =>
      refine (checkExpr_bare scope value).bind fun value' hvalue => ?_
      rw [(wellTyped_of_checkExpr value hvalue).bare_ann]
      exact .ite (fun _ => .ok (Stmt.ret ⟨scope.returns, info.pos⟩ (some value'))) fun _ =>
        .error _ _
  | .while_ info test body =>
    rw [Stmt.bare, checkStmt, checkStmt]
    refine (checkCondition_bare scope .loop test).bind fun test' _ => ?_
    refine (checkStmts_bare scope body).bind fun body' _ => ?_
    exact .ok (Stmt.while_ ⟨.none, info.pos⟩ test' body')
  | .cond info test body orElse =>
    have hrest : ∀ test' : Option (Expr Ty), Mirrors Stmt.bare
        (do
          let body' ← checkStmts scope body
          let orElse' ← checkArm scope orElse
          pure (.cond ⟨armGuarantee test' body' orElse', info.pos⟩ test' body' orElse'))
        (do
          let body' ← checkStmts scope (Stmt.allBare body)
          let orElse' ← checkArm scope (Stmt.elseBare orElse)
          pure (.cond ⟨armGuarantee (test'.map Expr.bare) body' orElse', info.unplaced.pos⟩
            (test'.map Expr.bare) body' orElse')) := by
      intro test'
      refine (checkStmts_bare scope body).bind fun body' _ => ?_
      refine (checkArm_bare scope orElse).bind fun orElse' _ => ?_
      rw [armGuarantee_bare]
      exact .ok (Stmt.cond ⟨armGuarantee test' body' orElse', info.pos⟩ test' body' orElse')
    simp only [Stmt.bare, checkStmt]
    cases test with
    | none => exact hrest none
    | some test =>
      have htest : Mirrors (Option.map Expr.bare) (some <$> checkCondition scope .conditional test)
          (some <$> checkCondition scope .conditional test.bare) :=
        (checkCondition_bare scope .conditional test).bind fun test' _ => .ok (some test')
      exact htest.bind fun test' _ => hrest test'
  | .pass info => exact .ok (Stmt.pass ⟨Ty.none, info.pos⟩)

theorem checkStmts_bare (scope : Scope) (body : List (Stmt α)) :
    Mirrors Stmt.allBare (checkStmts scope body) (checkStmts scope (Stmt.allBare body)) := by
  match body with
  | [] => exact .ok []
  | s :: rest =>
    rw [Stmt.allBare, checkStmts, checkStmts]
    refine (checkStmt_bare scope s).bind fun first _ => ?_
    refine (checkStmts_bare scope rest).bind fun others _ => ?_
    exact .ok (first :: others)

theorem checkArm_bare (scope : Scope) (arm : Option (Stmt α)) :
    Mirrors Stmt.elseBare (checkArm scope arm) (checkArm scope (Stmt.elseBare arm)) := by
  match arm with
  | none => exact .ok none
  | some next =>
    rw [Stmt.elseBare, checkArm, checkArm]
    refine (checkStmt_bare scope next).bind fun next' _ => ?_
    exact .ok (some next')

end

/-! ## Checking bare definitions -/

/-- Definitions have no parentheses, so only places differ. -/
theorem checkVarDef_unplaced (v : VarDef α) :
    Mirrors VarDef.unplaced (checkVarDef v) (checkVarDef v.unplaced) := by
  refine .ite (fun _ => ?_) fun _ => .error _ _
  exact .ok
    (VarDef.mk ⟨v.type, v.info.pos⟩ v.name v.type ⟨v.literal.type, v.literalInfo.pos⟩ v.literal)

/-- Global variables come into scope under the same names, wherever they stand. -/
theorem checkGlobals_unplaced (scope : Scope) (vs : List (VarDef α)) :
    Mirrors (Prod.map id (List.map VarDef.unplaced)) (checkGlobals scope vs)
      (checkGlobals scope (vs.map VarDef.unplaced)) := by
  induction vs generalizing scope with
  | nil => exact .ok (scope, [])
  | cons v rest ih =>
    rw [List.map_cons, checkGlobals, checkGlobals]
    refine .ite (fun _ => .error _ _) fun _ => .ite (fun _ => .error _ _) fun _ => ?_
    refine (checkVarDef_unplaced v).bind fun first _ => ?_
    refine (ih (scope.withGlobal v.name v.type)).bind fun others _ => ?_
    exact .ok (others.1, first :: others.2)

/-- Functions come into scope under the same names with the same signatures. -/
theorem declareFunctions_bare (scope : Scope) (fs : List (FuncDef α)) :
    Mirrors id (declareFunctions scope fs) (declareFunctions scope (fs.map FuncDef.bare)) := by
  induction fs generalizing scope with
  | nil => exact .ok scope
  | cons f rest ih =>
    have htypes : f.bare.params.map Param.type = f.params.map Param.type := List.map_map
    rw [List.map_cons, declareFunctions, declareFunctions, htypes]
    refine .ite (fun _ => .error _ _) fun _ => .ite (fun _ => .error _ _) fun _ => ?_
    exact .ite (fun _ => .error _ _) fun _ => ih _

/-- Whether a local name is free does not depend on the place. -/
theorem declareLocal_mirrors (scope : Scope) (function : Text) (pos pos' : Position) (name : Text)
    (type : Ty) :
    Mirrors id (declareLocal scope function pos name type)
      (declareLocal scope function pos' name type) := by
  exact .ite (fun _ => .error _ _) fun _ => .ite (fun _ => .error _ _) fun _ => .ok _

/-- Parameters come into scope under the same names, wherever they stand. -/
theorem checkParams_unplaced (scope : Scope) (function : Text) (ps : List (Param α)) :
    Mirrors (Prod.map id (List.map Param.unplaced)) (checkParams scope function ps)
      (checkParams scope function (ps.map Param.unplaced)) := by
  induction ps generalizing scope with
  | nil => exact .ok (scope, [])
  | cons p rest ih =>
    rw [List.map_cons, checkParams, checkParams]
    refine (declareLocal_mirrors scope function _ _ p.name p.type).bind fun inner _ => ?_
    refine (ih inner).bind fun others _ => ?_
    exact .ok (others.1, Param.mk ⟨p.type, p.info.pos⟩ p.name p.type :: others.2)

/-- And so do local variables. -/
theorem checkLocals_unplaced (scope : Scope) (function : Text) (vs : List (VarDef α)) :
    Mirrors (Prod.map id (List.map VarDef.unplaced)) (checkLocals scope function vs)
      (checkLocals scope function (vs.map VarDef.unplaced)) := by
  induction vs generalizing scope with
  | nil => exact .ok (scope, [])
  | cons v rest ih =>
    rw [List.map_cons, checkLocals, checkLocals]
    refine (declareLocal_mirrors scope function _ _ v.name v.type).bind fun inner _ => ?_
    refine (checkVarDef_unplaced v).bind fun first _ => ?_
    refine (ih inner).bind fun others _ => ?_
    exact .ok (others.1, first :: others.2)

/-- What a function declares to return stays. -/
theorem checkGuarantee_bare (f : FuncDef α) (found : Ty) :
    Mirrors id (checkGuarantee f found) (checkGuarantee f.bare found) := by
  refine .ite (fun _ => .ok ()) fun _ => .ite (fun _ => .error _ _) fun _ => ?_
  exact .ite (fun _ => .error _ _) fun _ => .error _ _

/-- A bare function is accepted exactly if the function is. -/
theorem checkFuncDef_bare (scope : Scope) (f : FuncDef α) :
    Mirrors FuncDef.bare (checkFuncDef scope f) (checkFuncDef scope f.bare) := by
  unfold checkFuncDef
  refine (checkParams_unplaced (scope.enter f.returns) f.name f.params).bind fun params _ => ?_
  refine (checkLocals_unplaced params.1 f.name f.locals).bind fun locals _ => ?_
  refine (checkStmts_bare locals.1 f.stmts).bind fun stmts _ => ?_
  rw [guarantee_allBare]
  refine (checkGuarantee_bare f (guarantee stmts)).bind fun _ _ => ?_
  exact .ok
    (FuncDef.mk f.pos f.name params.2 f.returns ⟨guarantee stmts, f.bodyInfo.pos⟩ locals.2 stmts)

theorem checkFunctions_bare (scope : Scope) (fs : List (FuncDef α)) :
    Mirrors (List.map FuncDef.bare) (checkFunctions scope fs)
      (checkFunctions scope (fs.map FuncDef.bare)) := by
  induction fs with
  | nil => exact .ok []
  | cons f rest ih =>
    rw [List.map_cons, checkFunctions, checkFunctions]
    refine (checkFuncDef_bare scope f).bind fun first _ => ?_
    refine ih.bind fun others _ => ?_
    exact .ok (first :: others)

end Typing

/-- A bare program is accepted exactly if the program is, and then its checked form is bare. -/
theorem Program.check_bare {α : Type} (p : Program α) :
    Mirrors Program.bare p.check p.bare.check := by
  unfold Program.check
  refine (checkGlobals_unplaced .initial p.globals).bind fun globals _ => ?_
  refine (declareFunctions_bare globals.1 p.functions).bind fun scope _ => ?_
  refine (checkFunctions_bare scope p.functions).bind fun functions _ => ?_
  refine (checkStmts_bare scope p.stmts).bind fun stmts _ => ?_
  exact .ok (Program.mk functions globals.2 stmts)

/-! ## Code of bare programs -/

namespace Code

variable {scope : Scope}

/-- The hidden argument of a call goes by the type of the first one, which parentheses keep. -/
theorem hidden_bare (function : Text) (args : List (Expr Ty)) {params : List Ty}
    (h : ArgsTyped scope params args) :
    hidden function (Expr.allBare args) = hidden function args := by
  unfold hidden
  split
  · match args, h with
    | [], _ => rfl
    | [arg], h =>
      show Except.ok [Instr.const (printMode arg.bare.info.ann).code] = _
      rw [h.1.bare_ann]
    | _ :: _ :: rest, _ =>
      show Except.error (Fault.printArguments ((Expr.allBare rest).length + 1 + 1)) = _
      rw [Expr.length_allBare]
      rfl
  · rfl

mutual

/-- A well-typed expression has the code of its bare form. -/
theorem expr_bare (locals : List Text) (e : Expr Ty) (h : e.WellTyped scope) :
    expr locals e.bare = expr locals e := by
  match e with
  | .literal .. => rfl
  | .ident .. => rfl
  | .unary info op arg => rw [Expr.bare, expr, expr, expr_bare locals arg h.1]
  | .binary info op lhs rhs =>
    rw [Expr.bare, expr, expr, expr_bare locals lhs h.1, expr_bare locals rhs h.2.1]
  | .paren info arg => rw [Expr.bare, expr, expr_bare locals arg h.1]
  | .call info function args =>
    obtain ⟨signature, -, -, hargs, -⟩ := h
    rw [Expr.bare, expr, expr, exprs_bare locals args hargs, hidden_bare function args hargs]

theorem exprs_bare (locals : List Text) (args : List (Expr Ty)) {params : List Ty}
    (h : ArgsTyped scope params args) :
    exprs locals (Expr.allBare args) = exprs locals args := by
  match args with
  | [] => rfl
  | arg :: rest =>
    rw [Expr.allBare, exprs, exprs, expr_bare locals arg h.1, exprs_bare locals rest h.2.2]

end

mutual

/-- A well-typed statement has the code of its bare form. -/
theorem stmt_bare (locals : List Text) (label : Nat) (s : Stmt Ty) (h : s.WellTyped scope) :
    stmt locals label s.bare = stmt locals label s := by
  match s with
  | .assign info target value => rw [Stmt.bare, stmt, stmt, expr_bare locals value h.1]
  | .expr info value => rw [Stmt.bare, stmt, stmt, expr_bare locals value h]
  | .ret info none => rfl
  | .ret info (some value) =>
    rw [Stmt.bare, Option.map_some, stmt, stmt, expr_bare locals value h.2.1]
  | .while_ info test body =>
    rw [Stmt.bare, stmt, stmt, expr_bare locals test h.1, stmts_bare locals (label + 1) body h.2.2]
  | .cond info none body orElse =>
    rw [Stmt.bare, Option.map_none, stmt, stmt, stmts_bare locals label body h.2.1]
  | .cond info (some test) body orElse =>
    obtain ⟨htest, hbody, horElse⟩ := h
    rw [Stmt.bare, Option.map_some, stmt, stmt, expr_bare locals test (htest test rfl).1,
      stmts_bare locals label body hbody]
    simp only [fun label => arm_bare locals label orElse horElse]
  | .pass info => rfl

theorem stmts_bare (locals : List Text) (label : Nat) (body : List (Stmt Ty))
    (h : StmtsTyped scope body) :
    stmts locals label (Stmt.allBare body) = stmts locals label body := by
  match body with
  | [] => rfl
  | s :: rest =>
    rw [Stmt.allBare, stmts, stmts, stmt_bare locals label s h.1]
    simp only [fun label => stmts_bare locals label rest h.2]

theorem arm_bare (locals : List Text) (label : Nat) (next : Option (Stmt Ty))
    (h : ArmTyped scope next) :
    arm locals label (Stmt.elseBare next) = arm locals label next := by
  match next with
  | none => rfl
  | some s => rw [Stmt.elseBare, arm, arm, stmt_bare locals label s h]

end

/-- Code does not mention places. -/
theorem globalFields_unplaced (vs : List (VarDef Ty)) :
    globalFields (vs.map VarDef.unplaced) = globalFields vs := by
  induction vs with
  | nil => rfl
  | cons v rest ih =>
    rw [List.map_cons, globalFields, globalFields, ih]
    rfl

theorem initialValues_unplaced (vs : List (VarDef Ty)) :
    initialValues (vs.map VarDef.unplaced) = initialValues vs := by
  induction vs with
  | nil => rfl
  | cons v rest ih =>
    rw [List.map_cons, initialValues, initialValues, ih]
    rfl

/-- A well-typed function has the code of its bare form. -/
theorem functionField_bare (f : FuncDef Ty) (h : f.WellTyped scope) :
    functionField f.bare = functionField f := by
  have hparams : f.bare.params.map Param.name = f.params.map Param.name := List.map_map
  have hlocals : f.bare.locals.map VarDef.name = f.locals.map VarDef.name := List.map_map
  have hinit : initialValues f.bare.locals = initialValues f.locals :=
    initialValues_unplaced f.locals
  have hbody : ∀ names, stmts names 1 f.bare.stmts = stmts names 1 f.stmts :=
    fun names => stmts_bare names 1 f.stmts h.body
  rw [functionField, functionField, hparams, hlocals, hinit, hbody]
  rfl

theorem functionFields_bare (fs : List (FuncDef Ty)) (h : ∀ f ∈ fs, f.WellTyped scope) :
    functionFields (fs.map FuncDef.bare) = functionFields fs := by
  induction fs with
  | nil => rfl
  | cons f rest ih =>
    obtain ⟨hf, hrest⟩ := List.forall_mem_cons.mp h
    rw [List.map_cons, functionFields, functionFields, functionField_bare f hf, ih hrest]

end Code

/-- A well-typed program has the code of its bare form. -/
theorem Program.toWat_bare {q : Program Ty} (h : q.WellTyped) : q.bare.toWat = q.toWat := by
  have hglobals : Code.globalFields q.bare.globals = Code.globalFields q.globals :=
    Code.globalFields_unplaced q.globals
  have hfunctions : Code.functionFields q.bare.functions = Code.functionFields q.functions :=
    Code.functionFields_bare q.functions h.functions
  have hentry : Code.stmts [] 1 q.bare.stmts = Code.stmts [] 1 q.stmts :=
    Code.stmts_bare [] 1 q.stmts h.body
  rw [Program.toWat, Program.toWat, Program.toLayout, Program.toLayout, Code.entryField,
    Code.entryField, hglobals, hfunctions, hentry]

/-- Programs that differ only in parentheses and positions are both refused, or both accepted and
then compiled to the same text, or refused by the code generator for the same reason. -/
theorem Program.toWat_eq_of_bare_eq {p p' : Program Unit} (h : p.bare = p'.bare) :
    ((∃ q, p.check = .ok q) ↔ ∃ q', p'.check = .ok q') ∧
      ∀ q q', p.check = .ok q → p'.check = .ok q' → q.toWat = q'.toWat := by
  constructor
  · calc
      (∃ q, p.check = .ok q) ↔ ∃ r, p.bare.check = .ok r := p.check_bare.exists_ok_iff
      _ ↔ ∃ r, p'.bare.check = .ok r := by rw [h]
      _ ↔ ∃ q', p'.check = .ok q' := p'.check_bare.exists_ok_iff.symm
  · intro q q' hq hq'
    have hbare : q.bare = q'.bare := by
      have hsame := p.check_bare.eq_ok hq
      rw [h, p'.check_bare.eq_ok hq'] at hsame
      exact (Except.ok.inj hsame).symm
    calc
      q.toWat = q.bare.toWat := (Program.toWat_bare (wellTyped_of_check hq).1).symm
      _ = q'.bare.toWat := by rw [hbare]
      _ = q'.toWat := Program.toWat_bare (wellTyped_of_check hq').1

/-- A program that prints whether one is less than two, all of it at the given column. -/
def comparison (column : Nat) (wrap : Expr Unit → Expr Unit) : Program Unit :=
  let info : Info Unit := ⟨(), ⟨1, column⟩⟩
  let two := wrap (.literal info (.number 2))
  let test := wrap (.binary info .less (.literal info (.number 1)) two)
  ⟨[], [], [.expr info (.call info "print" [test])]⟩

/-- One pair of parentheses more, and other positions. -/
theorem toWat_eq_of_bare_eq_comparison :
    (comparison 1 id).bare = (comparison 7 (.paren ⟨(), ⟨1, 8⟩⟩)).bare ∧
      ∃ q q', (comparison 1 id).check = .ok q ∧
        (comparison 7 (.paren ⟨(), ⟨1, 8⟩⟩)).check = .ok q' ∧ q.toWat = q'.toWat := by
  have hbare : (comparison 1 id).bare = (comparison 7 (.paren ⟨(), ⟨1, 8⟩⟩)).bare := rfl
  obtain ⟨haccepted, hcode⟩ := Program.toWat_eq_of_bare_eq hbare
  obtain ⟨q, hq⟩ : ∃ q, (comparison 1 id).check = .ok q := ⟨_, rfl⟩
  obtain ⟨q', hq'⟩ := haccepted.mp ⟨q, hq⟩
  exact ⟨hbare, q, q', hq, hq', hcode q q' hq hq'⟩

end WatCompiler
