import WatCompiler.Proofs.Evaluation
import WatCompiler.Proofs.Guarantee.Soundness

/-!
# Returns without a value

Checking looks at the value of every return that has one. A return without a value is no fault in
any function, and it is not sure to return anything: for checking it is a `pass` (`check_withPass`).
So in a function that returns a number or a truth value some return gives a value of that type, and
every return that has a value does (`returns_of_check`), but other returns may be bare. Such a
function is accepted if another of its returns makes it sure to return (`bare_return_accepted`).
-/

namespace WatCompiler

open Typing (guarantee armGuarantee)

variable {α : Type}

/-- A return without a value. -/
def Stmt.isBareReturn : Stmt α → Bool
  | .ret _ none => true
  | _ => false

/-- Every return in the function, at any depth, gives a value of the declared type. -/
def FuncDef.GivesValues (f : FuncDef Ty) : Prop :=
  ∀ info value, Stmt.ret info value ∈ innerAll f.stmts →
    ∃ e, value = some e ∧ e.info.ann = f.returns

/-! ## Bare returns are checked as `pass` -/

mutual

/-- A statement with `pass` in place of every bare return. -/
def Stmt.withPass : Stmt α → Stmt α
  | .ret info none => .pass info
  | .while_ info test body => .while_ info test (Stmt.withPassAll body)
  | .cond info test body orElse =>
    .cond info test (Stmt.withPassAll body) (Stmt.withPassArm orElse)
  | s => s

/-- Statements with `pass` in place of every bare return. -/
def Stmt.withPassAll : List (Stmt α) → List (Stmt α)
  | [] => []
  | s :: rest => s.withPass :: Stmt.withPassAll rest

/-- The next arm of a conditional with `pass` in place of every bare return. -/
def Stmt.withPassArm : Option (Stmt α) → Option (Stmt α)
  | none => none
  | some arm => some arm.withPass

end

/-- A function with `pass` in place of every bare return. -/
def FuncDef.withPass (f : FuncDef α) : FuncDef α := { f with stmts := Stmt.withPassAll f.stmts }

/-- A program with `pass` in place of every bare return in its functions. -/
def Program.withPass (p : Program α) : Program α :=
  { p with functions := p.functions.map FuncDef.withPass }

theorem Stmt.info_withPass (s : Stmt α) : s.withPass.info = s.info := by
  match s with
  | .ret _ none => rfl
  | .ret _ (some _) => rfl
  | .assign .. | .expr .. | .while_ .. | .cond .. | .pass .. => rfl

namespace Typing

/-- What statements are sure to return depends on their annotations only. -/
theorem guarantee_withPassAll (ss : List (Stmt Ty)) :
    guarantee (Stmt.withPassAll ss) = guarantee ss := by
  have hfold : ∀ found : Ty,
      (Stmt.withPassAll ss).foldl (fun found s => if s.info.ann = .none then found else s.info.ann)
          found =
        ss.foldl (fun found s => if s.info.ann = .none then found else s.info.ann) found := by
    induction ss with
    | nil => exact fun _ => rfl
    | cons s rest ih =>
      intro found
      rw [Stmt.withPassAll, List.foldl_cons, List.foldl_cons, Stmt.info_withPass, ih]
  exact hfold .none

theorem armGuarantee_withPass (test : Option (Expr Ty)) (body : List (Stmt Ty))
    (orElse : Option (Stmt Ty)) :
    armGuarantee test (Stmt.withPassAll body) (Stmt.withPassArm orElse) =
      armGuarantee test body orElse := by
  cases test with
  | none => exact guarantee_withPassAll body
  | some test =>
    cases orElse with
    | none => rfl
    | some next =>
      simp only [Stmt.withPassArm, armGuarantee, Stmt.info_withPass, guarantee_withPassAll]

variable {scope : Scope}

mutual

/-- Checking does not tell a bare return in a function from `pass`. -/
theorem checkStmt_withPass (hscope : scope.inFunction = true) (s : Stmt α) :
    checkStmt scope s.withPass = (checkStmt scope s).map Stmt.withPass := by
  match s with
  | .assign info target value =>
    show checkStmt scope (.assign info target value) = _
    cases h : checkStmt scope (.assign info target value) with
    | error e => rfl
    | ok s' =>
      obtain ⟨value', -, -, rfl⟩ := checkStmt_assign_eq_ok.mp h
      rfl
  | .expr info value =>
    show checkStmt scope (.expr info value) = _
    cases h : checkStmt scope (.expr info value) with
    | error e => rfl
    | ok s' =>
      obtain ⟨value', -, rfl⟩ := checkStmt_expr_eq_ok.mp h
      rfl
  | .ret info none =>
    -- The only case in which the two differ, and a function is needed for a return to be accepted.
    simp only [Stmt.withPass, checkStmt, if_pos hscope]
    rfl
  | .ret info (some value) =>
    show checkStmt scope (.ret info (some value)) = _
    cases h : checkStmt scope (.ret info (some value)) with
    | error e => rfl
    | ok s' =>
      obtain ⟨-, value', -, -, rfl⟩ := checkStmt_ret_eq_ok.mp h
      rfl
  | .while_ info test body =>
    rw [Stmt.withPass, checkStmt, checkStmt, checkStmts_withPass hscope body]
    cases checkCondition scope .loop test with
    | error e => rfl
    | ok test' => cases checkStmts scope body <;> rfl
  | .cond info test body orElse =>
    -- What follows the test is the same with and without one.
    have hrest : ∀ test' : Option (Expr Ty),
        (do
          let body ← checkStmts scope (Stmt.withPassAll body)
          let orElse ← checkArm scope (Stmt.withPassArm orElse)
          pure (Stmt.cond ⟨armGuarantee test' body orElse, info.pos⟩ test' body orElse)) =
        Except.map Stmt.withPass (do
          let body ← checkStmts scope body
          let orElse ← checkArm scope orElse
          pure (Stmt.cond ⟨armGuarantee test' body orElse, info.pos⟩ test' body orElse)) := by
      intro test'
      rw [checkStmts_withPass hscope body, checkArm_withPass hscope orElse]
      cases checkStmts scope body with
      | error e => rfl
      | ok body' =>
        cases checkArm scope orElse with
        | error e => rfl
        | ok orElse' =>
          show Except.ok (Stmt.cond ⟨armGuarantee test' (Stmt.withPassAll body')
            (Stmt.withPassArm orElse'), info.pos⟩ test' _ _) = _
          rw [armGuarantee_withPass]
          rfl
    cases test with
    | none => exact hrest none
    | some test =>
      show (some <$> checkCondition scope .conditional test >>= _) =
        Except.map _ (some <$> checkCondition scope .conditional test >>= _)
      cases checkCondition scope .conditional test with
      | error e => rfl
      | ok test' => exact hrest (some test')
  | .pass info => rfl

theorem checkStmts_withPass (hscope : scope.inFunction = true) (body : List (Stmt α)) :
    checkStmts scope (Stmt.withPassAll body) = (checkStmts scope body).map Stmt.withPassAll := by
  match body with
  | [] => rfl
  | s :: rest =>
    rw [Stmt.withPassAll, checkStmts, checkStmts, checkStmt_withPass hscope s,
      checkStmts_withPass hscope rest]
    cases checkStmt scope s with
    | error e => rfl
    | ok s' => cases checkStmts scope rest <;> rfl

theorem checkArm_withPass (hscope : scope.inFunction = true) (orElse : Option (Stmt α)) :
    checkArm scope (Stmt.withPassArm orElse) = (checkArm scope orElse).map Stmt.withPassArm := by
  match orElse with
  | none => rfl
  | some arm =>
    rw [Stmt.withPassArm, checkArm, checkArm, checkStmt_withPass hscope arm]
    cases checkStmt scope arm <;> rfl

end

theorem checkFuncDef_withPass (f : FuncDef α) :
    checkFuncDef scope f.withPass = (checkFuncDef scope f).map FuncDef.withPass := by
  unfold checkFuncDef
  show (checkParams (scope.enter f.returns) f.name f.params >>= _) = _
  cases hparams : checkParams (scope.enter f.returns) f.name f.params with
  | error e => rfl
  | ok opened =>
    obtain ⟨scope₁, params⟩ := opened
    show (checkLocals scope₁ f.name f.locals >>= _) =
      Except.map _ (checkLocals scope₁ f.name f.locals >>= _)
    cases hlocals : checkLocals scope₁ f.name f.locals with
    | error e => rfl
    | ok inner =>
      obtain ⟨scope₂, locals⟩ := inner
      have hscope : scope₂.inFunction = true := by
        rw [scope_of_checkLocals hparams hlocals]
        rfl
      show (checkStmts scope₂ (Stmt.withPassAll f.stmts) >>= _) =
        Except.map _ (checkStmts scope₂ f.stmts >>= _)
      rw [checkStmts_withPass hscope]
      cases checkStmts scope₂ f.stmts with
      | error e => rfl
      | ok stmts =>
        show (checkGuarantee f (guarantee (Stmt.withPassAll stmts)) >>= _) =
          Except.map _ (checkGuarantee f (guarantee stmts) >>= _)
        rw [guarantee_withPassAll]
        cases checkGuarantee f (guarantee stmts) with
        | error e => rfl
        | ok _ => rfl

theorem checkFunctions_withPass (fs : List (FuncDef α)) :
    checkFunctions scope (fs.map FuncDef.withPass) =
      (checkFunctions scope fs).map (List.map FuncDef.withPass) := by
  induction fs with
  | nil => rfl
  | cons f rest ih =>
    rw [List.map_cons, checkFunctions, checkFunctions, checkFuncDef_withPass, ih]
    cases checkFuncDef scope f with
    | error e => rfl
    | ok first => cases checkFunctions scope rest <;> rfl

/-- Signatures do not depend on bodies. -/
theorem declareFunctions_withPass (fs : List (FuncDef α)) :
    declareFunctions scope (fs.map FuncDef.withPass) = declareFunctions scope fs := by
  induction fs generalizing scope with
  | nil => rfl
  | cons f rest ih =>
    rw [List.map_cons, declareFunctions, declareFunctions, ih]
    rfl

end Typing

/-- Checking takes a bare return in a function for a `pass`, whatever the function declares. -/
theorem check_withPass (p : Program α) : p.withPass.check = p.check.map Program.withPass := by
  show (Typing.checkGlobals .initial p.globals >>= _) =
    Except.map _ (Typing.checkGlobals .initial p.globals >>= _)
  cases Typing.checkGlobals .initial p.globals with
  | error e => rfl
  | ok opened =>
    obtain ⟨scope₁, globals⟩ := opened
    show (Typing.declareFunctions scope₁ (p.functions.map FuncDef.withPass) >>= _) =
      Except.map _ (Typing.declareFunctions scope₁ p.functions >>= _)
    rw [Typing.declareFunctions_withPass]
    cases Typing.declareFunctions scope₁ p.functions with
    | error e => rfl
    | ok scope₂ =>
      show (Typing.checkFunctions scope₂ (p.functions.map FuncDef.withPass) >>= _) =
        Except.map _ (Typing.checkFunctions scope₂ p.functions >>= _)
      rw [Typing.checkFunctions_withPass]
      cases Typing.checkFunctions scope₂ p.functions with
      | error e => rfl
      | ok functions =>
        show (Typing.checkStmts scope₂ p.stmts >>= _) =
          Except.map _ (Typing.checkStmts scope₂ p.stmts >>= _)
        cases Typing.checkStmts scope₂ p.stmts <;> rfl

/-! ## Returns with a value -/

/-- What checking finds out about the returns of a program's functions. -/
theorem annotated_of_check {p : Program α} {q : Program Ty} (h : p.check = .ok q) :
    ∀ f ∈ q.functions, AllAnnotated f.returns f.stmts ∧ guarantee f.stmts = f.returns := by
  obtain ⟨-, -, hfunctions, -⟩ := check_eq_ok_iff.mp h
  refine Typing.forall_mem_of_map_eq_ok hfunctions fun _ _ f' hf' => ?_
  obtain ⟨hannotated, -, hsure⟩ := Typing.annotated_of_checkFuncDef hf'
  exact ⟨hannotated, hsure⟩

/-- A statement that may run off its end does not count. -/
theorem guarantee_cons_of_none {s : Stmt Ty} (h : s.info.ann = .none) (rest : List (Stmt Ty)) :
    guarantee (s :: rest) = guarantee rest := by
  rw [guarantee, List.foldl_cons, if_pos h]
  rfl

section Sure

variable {returns : Ty}

mutual

/-- A statement that is sure to return has a return with a value inside. -/
theorem exists_return_of_ann (s : Stmt Ty) (hs : s.Annotated returns) (hann : s.info.ann ≠ .none) :
    ∃ info e, Stmt.ret info (some e) ∈ s :: s.inner := by
  match s, hs with
  | .assign .., hs | .expr .., hs | .ret _ none, hs | .pass .., hs => exact absurd hs hann
  | .while_ .., hs => exact absurd hs.1 hann
  | .ret info (some value), _ => exact ⟨info, value, List.mem_cons_self⟩
  | .cond info test body orElse, ⟨hguarantee, hbody, harm⟩ =>
    -- An arm is sure to return only if its own body is, whatever the other arms are.
    have hsure : guarantee body ≠ .none := by
      intro hnone
      apply hann
      show info.ann = .none
      rw [hguarantee]
      unfold armGuarantee
      split
      · exact hnone
      · rfl
      · split
        · rfl
        · exact hnone
    obtain ⟨info', e, hmem⟩ := exists_return_of_guarantee body hbody hsure
    exact ⟨info', e, List.mem_cons_of_mem _ (List.mem_append_left _ hmem)⟩

/-- Among statements that are sure to return there is a return with a value. -/
theorem exists_return_of_guarantee (ss : List (Stmt Ty)) (hss : AllAnnotated returns ss)
    (hsure : guarantee ss ≠ .none) : ∃ info e, Stmt.ret info (some e) ∈ innerAll ss := by
  match ss, hss with
  | [], _ => exact absurd rfl hsure
  | s :: rest, ⟨hs, hrest⟩ =>
    by_cases hann : s.info.ann = .none
    · rw [guarantee_cons_of_none hann] at hsure
      obtain ⟨info, e, hmem⟩ := exists_return_of_guarantee rest hrest hsure
      exact ⟨info, e, List.mem_cons_of_mem _ (List.mem_append_right _ hmem)⟩
    · obtain ⟨info, e, hmem⟩ := exists_return_of_ann s hs hann
      exact ⟨info, e, List.mem_append_left (innerAll rest) hmem⟩

end

end Sure

/-- A function that gives values has no bare return. -/
theorem FuncDef.GivesValues.isBareReturn_eq_false {f : FuncDef Ty} (h : f.GivesValues) :
    ∀ s ∈ innerAll f.stmts, s.isBareReturn = false := by
  intro s hs
  match s, hs with
  | .ret info none, hs =>
    obtain ⟨e, he, -⟩ := h info none hs
    cases he
  | .ret _ (some _), _ | .assign .., _ | .expr .., _ | .while_ .., _ | .cond .., _ | .pass .., _ =>
    rfl

/-- A function whose valued returns have the declared type gives values exactly if none of its
returns is bare. -/
theorem FuncDef.givesValues_iff {f : FuncDef Ty}
    (hvalued : ∀ info e, Stmt.ret info (some e) ∈ innerAll f.stmts → e.info.ann = f.returns) :
    f.GivesValues ↔ ∀ s ∈ innerAll f.stmts, s.isBareReturn = false := by
  refine ⟨FuncDef.GivesValues.isBareReturn_eq_false, ?_⟩
  intro hvalues info value hmem
  cases value with
  | none => cases hvalues _ hmem
  | some e => exact ⟨e, rfl, hvalued info e hmem⟩

/-- **What checking says about returns.** A bare return is checked as a `pass`, so a program is
accepted with bare returns if and only if it is accepted without them. In a checked function that
returns a number or a truth value, every return that has a value gives one of the declared type,
there is such a return, and all returns are like that if and only if none is bare. -/
theorem returns_of_check (p : Program α) :
    p.withPass.check = p.check.map Program.withPass ∧
    ∀ q, p.check = .ok q → ∀ f ∈ q.functions, f.returns = .int ∨ f.returns = .bool →
      (∀ info e, Stmt.ret info (some e) ∈ innerAll f.stmts →
        e.WellTyped (f.scope q.scope) ∧ e.info.ann = f.returns) ∧
      (∃ info e, Stmt.ret info (some e) ∈ innerAll f.stmts) ∧
      (f.GivesValues ↔ ∀ s ∈ innerAll f.stmts, s.isBareReturn = false) := by
  refine ⟨check_withPass p, ?_⟩
  intro q h f hf hreturns
  have htyped := stmtsTyped_iff.mp ((wellTyped_of_check h).1.functions f hf).body
  have hvalued : ∀ info e, Stmt.ret info (some e) ∈ innerAll f.stmts →
      e.WellTyped (f.scope q.scope) ∧ e.info.ann = f.returns := by
    intro info e hmem
    exact (forall_mem_innerAll Stmt.WellTyped.children f.stmts htyped _ hmem).2
  refine ⟨hvalued, ?_, FuncDef.givesValues_iff fun info e hmem => (hvalued info e hmem).2⟩
  obtain ⟨hannotated, hsure⟩ := annotated_of_check h f hf
  refine exists_return_of_guarantee f.stmts hannotated ?_
  rw [hsure]
  rcases hreturns with hreturns | hreturns <;> rw [hreturns] <;> nofun

/-- A function that leaves early without the number it declares. -/
def earlySource : Text :=
  "def f(a:int) -> int:\n  if a > 0:\n    return\n  return 1\nprint(f(1))\n"

/-- The function is accepted, and where it should give an int it gives a zero. -/
theorem checkSource_earlySource :
    ∃ q f, checkSource earlySource = .ok q ∧ f ∈ q.functions ∧ f.returns = .int ∧
      (innerAll f.stmts).map Stmt.isBareReturn = [false, true, false] ∧
      q.evaluate 3 = some (none, ⟨[], ["0"]⟩) := by
  have hchecked : (checkSource earlySource).toOption.map
      (fun q => (q.functions.map fun f => (f.returns, (innerAll f.stmts).map Stmt.isBareReturn),
        q.evaluate 3)) = some ([(.int, [false, true, false])], some (none, ⟨[], ["0"]⟩)) := by
    decide +kernel
  obtain ⟨q, hq, hfound⟩ := toOption_map_eq_some.mp hchecked
  obtain ⟨hfunctions, hrun⟩ := Prod.mk.inj hfound
  obtain ⟨f, hf, hreturns⟩ := List.map_eq_singleton_iff.mp hfunctions
  obtain ⟨hreturns, hbare⟩ := Prod.mk.inj hreturns
  refine ⟨q, f, hq, ?_, hreturns, hbare, hrun⟩
  rw [hf]
  exact List.mem_singleton_self f

/-- The bare return counts as `pass`; the other return gives an int. -/
theorem returns_of_check_earlySource :
    ∃ p q f, parseProgram earlySource = .ok p ∧ p.check = .ok q ∧ f ∈ q.functions ∧
      f.returns = .int ∧ (∃ info e, Stmt.ret info (some e) ∈ innerAll f.stmts ∧ e.info.ann = .int) ∧
      p.withPass.check = .ok q.withPass := by
  obtain ⟨q, f, hq, hf, hreturns, -⟩ := checkSource_earlySource
  obtain ⟨p, hp, hq⟩ := bind_eq_ok.mp hq
  have hq := mapError_eq_ok.mp hq
  obtain ⟨hpass, hfunctions⟩ := returns_of_check p
  obtain ⟨hvalued, ⟨info, e, he⟩, -⟩ := hfunctions q hq f hf (.inl hreturns)
  refine ⟨p, q, f, hp, hq, hf, hreturns, ⟨info, e, he, ?_⟩, ?_⟩
  · rw [(hvalued info e he).2, hreturns]
  · rw [hpass, hq]
    rfl

/-- A bare return is accepted in a function that returns a number. The call then gives zero. -/
theorem bare_return_accepted :
    ∃ q f, checkSource earlySource = .ok q ∧ f ∈ q.functions ∧ f.returns = .int ∧
      ¬ f.GivesValues ∧ q.evaluate 3 = some (none, ⟨[], ["0"]⟩) := by
  obtain ⟨q, f, hq, hf, hreturns, hbare, hrun⟩ := checkSource_earlySource
  refine ⟨q, f, hq, hf, hreturns, ?_, hrun⟩
  intro hgives
  have htrue : true ∈ (innerAll f.stmts).map Stmt.isBareReturn := by
    rw [hbare]
    exact List.mem_cons_of_mem _ List.mem_cons_self
  obtain ⟨s, hs, hs'⟩ := List.mem_map.mp htrue
  rw [hgives.isBareReturn_eq_false s hs] at hs'
  cases hs'

end WatCompiler
