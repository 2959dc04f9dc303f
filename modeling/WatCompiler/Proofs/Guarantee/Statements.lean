import WatCompiler.Proofs.Guarantee.Endless
import WatCompiler.Proofs.Wat.Valid

/-!
# Statements that are sure to return

The annotations that checking gives to statements are `none` or the type that the function returns
(`Stmt.Annotated.ann_cases`), and the code of statements with another annotation than `none` is
endless (`endless_stmts`). Before the statement that returns there may be any others: their branches
stay inside of them (`tame_stmts`).
-/

namespace WatCompiler

open Typing (guarantee armGuarantee)
open Layout (data)

/-! ## Annotations -/

mutual

/-- The annotations in a statement are those that checking gives in a function with a given return
type. -/
def Stmt.Annotated (returns : Ty) : Stmt Ty → Prop
  | .assign info _ _ | .expr info _ | .ret info none | .pass info => info.ann = .none
  | .ret info (some _) => info.ann = returns
  | .while_ info _ body => info.ann = .none ∧ AllAnnotated returns body
  | .cond info test body orElse =>
    info.ann = armGuarantee test body orElse ∧ AllAnnotated returns body ∧
      ArmAnnotated returns orElse

/-- All statements are annotated so. -/
def AllAnnotated (returns : Ty) : List (Stmt Ty) → Prop
  | [] => True
  | s :: rest => s.Annotated returns ∧ AllAnnotated returns rest

/-- The next arm of a conditional, if there is one, is annotated so. -/
def ArmAnnotated (returns : Ty) : Option (Stmt Ty) → Prop
  | none => True
  | some next => next.Annotated returns

end

/-- What statements are sure to return is what one of them is sure to return. -/
theorem guarantee_cases (ss : List (Stmt Ty)) :
    guarantee ss = .none ∨ ∃ s ∈ ss, s.info.ann = guarantee ss := by
  have hfold : ∀ found : Ty,
      let result := ss.foldl (fun found s => if s.info.ann = .none then found else s.info.ann) found
      result = found ∨ ∃ s ∈ ss, s.info.ann = result := by
    induction ss with
    | nil => exact fun found => .inl rfl
    | cons s rest ih =>
      intro found
      rw [List.foldl_cons]
      rcases ih (if s.info.ann = .none then found else s.info.ann) with h | ⟨s', hmem, h⟩
      · by_cases hnone : s.info.ann = .none
        · rw [if_pos hnone] at h ⊢
          exact .inl h
        · rw [if_neg hnone] at h ⊢
          exact .inr ⟨s, List.mem_cons_self, h.symm⟩
      · exact .inr ⟨s', List.mem_cons_of_mem s hmem, h⟩
  exact hfold .none

section Annotations

variable {returns : Ty}

/-- What statements are sure to return, one of them is annotated with. -/
theorem guarantee_cases_of_forall {ss : List (Stmt Ty)}
    (h : ∀ s ∈ ss, s.info.ann = .none ∨ s.info.ann = returns) :
    guarantee ss = .none ∨ guarantee ss = returns := by
  rcases guarantee_cases ss with hnone | ⟨s, hmem, hann⟩
  · exact .inl hnone
  · rw [← hann]
    exact h s hmem

mutual

/-- A statement is sure to return what the function returns, or may not return. -/
theorem Stmt.Annotated.ann_cases (s : Stmt Ty) (h : s.Annotated returns) :
    s.info.ann = .none ∨ s.info.ann = returns := by
  match s, h with
  | .assign .., h | .expr .., h | .ret _ none, h | .pass .., h => exact .inl h
  | .ret _ (some _), h => exact .inr h
  | .while_ .., h => exact .inl h.1
  | .cond info test body orElse, ⟨hann, hbody, _⟩ =>
    have hcases := guarantee_cases_of_forall (AllAnnotated.ann_cases body hbody)
    show info.ann = .none ∨ info.ann = returns
    rw [hann]
    unfold armGuarantee
    split
    · exact hcases
    · exact .inl rfl
    · split
      · exact .inl rfl
      · exact hcases

theorem AllAnnotated.ann_cases (ss : List (Stmt Ty)) (h : AllAnnotated returns ss) :
    ∀ s ∈ ss, s.info.ann = .none ∨ s.info.ann = returns := by
  match ss, h with
  | [], _ => exact nofun
  | s :: rest, ⟨hs, hrest⟩ =>
    exact List.forall_mem_cons.mpr ⟨Stmt.Annotated.ann_cases s hs,
      AllAnnotated.ann_cases rest hrest⟩

end

theorem AllAnnotated.guarantee_cases (ss : List (Stmt Ty)) (h : AllAnnotated returns ss) :
    guarantee ss = .none ∨ guarantee ss = returns :=
  guarantee_cases_of_forall (AllAnnotated.ann_cases ss h)

end Annotations

section Checking

variable {α : Type} {scope : Scope}

open Typing

mutual

/-- Checking annotates a statement with what it is sure to return. -/
theorem annotated_of_checkStmt (s : Stmt α) {s' : Stmt Ty} (h : checkStmt scope s = .ok s') :
    s'.Annotated scope.returns := by
  match s with
  | .assign info target value =>
    obtain ⟨value', -, -, rfl⟩ := checkStmt_assign_eq_ok.mp h
    rfl
  | .expr info value =>
    obtain ⟨value', -, rfl⟩ := checkStmt_expr_eq_ok.mp h
    rfl
  | .ret info none =>
    obtain ⟨-, rfl⟩ := checkStmt_bare_eq_ok.mp h
    rfl
  | .ret info (some value) =>
    obtain ⟨-, value', -, -, rfl⟩ := checkStmt_ret_eq_ok.mp h
    rfl
  | .while_ info test body =>
    obtain ⟨test', -, body', hbody, rfl⟩ := checkStmt_while_eq_ok.mp h
    exact ⟨rfl, annotated_of_checkStmts body hbody⟩
  | .cond info none body orElse =>
    obtain ⟨body', hbody, orElse', horElse, rfl⟩ := checkStmt_else_eq_ok.mp h
    exact ⟨rfl, annotated_of_checkStmts body hbody, annotated_of_checkArm orElse horElse⟩
  | .cond info (some test) body orElse =>
    obtain ⟨test', -, body', hbody, orElse', horElse, rfl⟩ := checkStmt_cond_eq_ok.mp h
    exact ⟨rfl, annotated_of_checkStmts body hbody, annotated_of_checkArm orElse horElse⟩
  | .pass info =>
    cases h
    rfl

theorem annotated_of_checkStmts (ss : List (Stmt α)) {ss' : List (Stmt Ty)}
    (h : checkStmts scope ss = .ok ss') : AllAnnotated scope.returns ss' := by
  match ss with
  | [] =>
    cases h
    trivial
  | s :: rest =>
    obtain ⟨first, hfirst, others, hothers, rfl⟩ := checkStmts_cons_eq_ok.mp h
    exact ⟨annotated_of_checkStmt s hfirst, annotated_of_checkStmts rest hothers⟩

theorem annotated_of_checkArm (orElse : Option (Stmt α)) {orElse' : Option (Stmt Ty)}
    (h : checkArm scope orElse = .ok orElse') : ArmAnnotated scope.returns orElse' := by
  match orElse with
  | none =>
    cases h
    trivial
  | some s =>
    obtain ⟨next, hnext, rfl⟩ := checkArm_some_eq_ok.mp h
    exact annotated_of_checkStmt s hnext

end

end Checking

/-! ## Code -/

/-- Instructions that put a value on the stack and change no variable. -/
def Instr.IsValue : Instr → Prop
  | const _ | localGet _ | globalGet _ | call _ | arith _ => True
  | _ => False

theorem Instr.IsValue.isFlat {i : Instr} (h : i.IsValue) : i.IsFlat := by
  cases i <;> first | exact h | trivial

/-- A flat instruction is read back from its form. -/
theorem Instr.IsFlat.instr_form {i : Instr} (h : i.IsFlat) : i.form.instr = i :=
  Instr.instr_form (by cases i <;> first | exact h | trivial)

namespace Code

variable {locals : List Text}

/-- A flat instruction does not branch. -/
theorem tame_form {i : Instr} (h : i.IsFlat) (labels : List Text) : Tame labels i.form := by
  refine .flat ?_
  rw [h.instr_form]
  exact h

theorem tame_lines {code : List Instr} (h : ∀ i ∈ code, i.IsFlat) (labels : List Text) :
    ∀ d ∈ data (lines code), Tame labels d := by
  rw [data_lines]
  intro d hd
  obtain ⟨i, hi, rfl⟩ := List.mem_map.mp hd
  exact tame_form (h i hi) labels

theorem set_isFlat (name : Text) : (set locals name).IsFlat := by
  unfold set
  split <;> trivial

theorem get_isValue (name : Text) : (get locals name).IsValue := by
  unfold get
  split <;> trivial

/-- What a call passes besides its arguments is a constant. -/
theorem hidden_isValue {function : Text} {args : List (Expr Ty)} {code : List Instr}
    (h : hidden function args = .ok code) : ∀ i ∈ code, i.IsValue := by
  unfold hidden at h
  split at h
  · split at h
    · cases h
      exact List.forall_mem_singleton.mpr trivial
    · cases h
  · cases h
    exact List.forall_mem_nil _

mutual

/-- The code of an expression changes no variable. -/
theorem expr_isValue (e : Expr Ty) {code : List Instr} (h : expr locals e = .ok code) :
    ∀ i ∈ code, i.IsValue := by
  match e with
  | .literal info value =>
    obtain ⟨word, -, rfl⟩ := expr_literal_eq_ok.mp h
    exact List.forall_mem_singleton.mpr trivial
  | .ident info name =>
    cases h
    exact List.forall_mem_singleton.mpr (get_isValue name)
  | .unary info op arg =>
    obtain ⟨first, hfirst, more, hmore, rfl⟩ := expr_unary_eq_ok.mp h
    refine List.forall_mem_append.mpr ⟨expr_isValue arg hfirst, ?_⟩
    cases op with
    | other => cases hmore
    | _ =>
      cases hmore
      simp [Instr.IsValue]
  | .binary info op lhs rhs =>
    obtain ⟨left, hleft, right, hright, word, -, rfl⟩ := expr_binary_eq_ok.mp h
    exact List.forall_mem_append.mpr ⟨List.forall_mem_append.mpr
      ⟨expr_isValue lhs hleft, expr_isValue rhs hright⟩, List.forall_mem_singleton.mpr trivial⟩
  | .paren info arg => exact expr_isValue arg h
  | .call info function args =>
    obtain ⟨values, hvalues, more, hmore, rfl⟩ := expr_call_eq_ok.mp h
    exact List.forall_mem_append.mpr ⟨List.forall_mem_append.mpr
      ⟨exprs_isValue args hvalues, hidden_isValue hmore⟩, List.forall_mem_singleton.mpr trivial⟩

theorem exprs_isValue (args : List (Expr Ty)) {code : List Instr}
    (h : exprs locals args = .ok code) : ∀ i ∈ code, i.IsValue := by
  match args with
  | [] =>
    cases h
    exact List.forall_mem_nil _
  | e :: rest =>
    obtain ⟨first, hfirst, others, hothers, rfl⟩ := exprs_cons_eq_ok.mp h
    exact List.forall_mem_append.mpr ⟨expr_isValue e hfirst, exprs_isValue rest hothers⟩

end

/-- Expressions have flat code. -/
theorem expr_isFlat {e : Expr Ty} {code : List Instr} (h : expr locals e = .ok code) :
    ∀ i ∈ code, i.IsFlat :=
  fun i hi => (expr_isValue e h i hi).isFlat

theorem initialValues_isFlat {vs : List (VarDef Ty)} {init : List Instr}
    (h : initialValues vs = .ok init) : ∀ i ∈ init, i.IsFlat :=
  forall_mem_initialValues h (fun _ => trivial) fun _ _ => trivial

/-- The code of an expression with one more instruction. -/
theorem tame_expr_append {e : Expr Ty} {code more : List Instr} (h : expr locals e = .ok code)
    (hmore : ∀ i ∈ more, i.IsFlat) (labels : List Text) :
    ∀ d ∈ data (lines (code ++ more)), Tame labels d :=
  tame_lines (List.forall_mem_append.mpr ⟨expr_isFlat h, hmore⟩) labels

/-- The code of a loop branches only to its own labels. -/
theorem tame_round {test : Expr Ty} {code : List Instr} (htest : expr locals test = .ok code)
    {label : Nat} {body : List Layout} {labels : List Text}
    (hbody : ∀ d ∈ data body, Tame (loopLabel label :: blockLabel label :: labels) d) :
    ∀ d ∈ data (lines (code ++ [Instr.const 1, .arith .xor, .brIf (blockLabel label)]) ++ body ++
      lines [.br (loopLabel label)]), Tame (loopLabel label :: blockLabel label :: labels) d := by
  have hexit : Tame (loopLabel label :: blockLabel label :: labels)
      (Instr.brIf (blockLabel label)).form :=
    .branch (.inr (Instr.instr_form trivial)) (List.mem_cons_of_mem _ List.mem_cons_self)
  have hagain : Tame (loopLabel label :: blockLabel label :: labels)
      (Instr.br (loopLabel label)).form :=
    .branch (.inl (Instr.instr_form trivial)) List.mem_cons_self
  rw [data_append, data_append, data_lines, data_lines, List.map_append, ← data_lines]
  refine List.forall_mem_append.mpr ⟨List.forall_mem_append.mpr
    ⟨List.forall_mem_append.mpr ⟨tame_lines (expr_isFlat htest) _, ?_⟩, hbody⟩, ?_⟩
  · refine List.forall_mem_cons.mpr ⟨tame_form (i := .const 1) trivial _, ?_⟩
    refine List.forall_mem_cons.mpr ⟨tame_form (i := .arith .xor) trivial _, ?_⟩
    exact List.forall_mem_singleton.mpr hexit
  · exact List.forall_mem_singleton.mpr hagain

mutual

/-- Branches of a statement stay inside of it. -/
theorem tame_stmt (s : Stmt Ty) {label next : Nat} {code : List Layout}
    (h : stmt locals label s = .ok (code, next)) (labels : List Text) :
    ∀ d ∈ data code, Tame labels d := by
  match s with
  | .assign info target value =>
    obtain ⟨word, hvalue, rfl, rfl⟩ := stmt_assign_eq_ok.mp h
    exact tame_expr_append hvalue (List.forall_mem_singleton.mpr (set_isFlat target)) labels
  | .expr info value =>
    obtain ⟨word, hvalue, rfl, rfl⟩ := stmt_expr_eq_ok.mp h
    exact tame_expr_append hvalue (by simp [Instr.IsFlat]) labels
  | .ret info none =>
    cases h
    exact tame_lines (by simp [Instr.IsFlat]) labels
  | .ret info (some value) =>
    obtain ⟨word, hvalue, rfl, rfl⟩ := stmt_ret_eq_ok.mp h
    exact tame_expr_append hvalue (by simp [Instr.IsFlat]) labels
  | .while_ info test body =>
    obtain ⟨test', htest, body', last, hbody, rfl, rfl⟩ := stmt_while_eq_ok.mp h
    have hround := tame_round htest
      (tame_stmts body hbody (loopLabel label :: blockLabel label :: labels))
    have hloop : Tame (blockLabel label :: labels) (nested ["loop", loopLabel label] _).datum :=
      .loop (Instr.instr_form (i := .loop (some (.symbol (loopLabel label))) _) trivial)
        (loopLabel_ne_nil label) hround
    exact List.forall_mem_singleton.mpr
      (.block (Instr.instr_form (i := .block (some (.symbol (blockLabel label))) _) trivial)
        (blockLabel_ne_nil label) (List.forall_mem_singleton.mpr hloop))
  | .cond info none body orElse => exact tame_stmts body h labels
  | .cond info (some test) body orElse =>
    obtain ⟨test', htest, body', middle, hbody, orElse', last, horElse, rfl, rfl⟩ :=
      stmt_cond_eq_ok.mp h
    rw [data_append]
    refine List.forall_mem_append.mpr ⟨tame_lines (expr_isFlat htest) labels, ?_⟩
    refine List.forall_mem_singleton.mpr (.cond (Instr.instr_form
      (i := .cond ((nested ["then"] body').datum :: data orElse')) trivial) ?_)
    exact List.forall_mem_cons.mpr ⟨tame_stmts body hbody labels, tame_arm orElse horElse labels⟩
  | .pass info =>
    cases h
    exact List.forall_mem_nil _

theorem tame_stmts (body : List (Stmt Ty)) {label next : Nat} {code : List Layout}
    (h : stmts locals label body = .ok (code, next)) (labels : List Text) :
    ∀ d ∈ data code, Tame labels d := by
  match body with
  | [] =>
    cases h
    exact List.forall_mem_nil _
  | s :: rest =>
    obtain ⟨first, middle, hfirst, others, last, hothers, rfl, rfl⟩ := stmts_cons_eq_ok.mp h
    rw [data_append]
    exact List.forall_mem_append.mpr
      ⟨tame_stmt s hfirst labels, tame_stmts rest hothers labels⟩

theorem tame_arm (orElse : Option (Stmt Ty)) {label next : Nat} {code : List Layout}
    (h : arm locals label orElse = .ok (code, next)) (labels : List Text) :
    ∀ arm ∈ data code, ∀ d ∈ arm.items.tail, Tame labels d := by
  match orElse with
  | none =>
    cases h
    exact List.forall_mem_nil _
  | some s =>
    obtain ⟨body, last, hbody, rfl, rfl⟩ := arm_some_eq_ok.mp h
    exact List.forall_mem_singleton.mpr (tame_stmt s hbody labels)

end

/-! ## Endless statements -/

/-- What leads to a return never ends. -/
theorem endless_ret {code : List Datum} (hcode : ∀ d ∈ code, Tame [] d) (rest : List Datum) :
    Endless (code ++ Instr.ret.form :: rest) :=
  .append_left hcode (.ret (Instr.instr_form (i := .ret) trivial))

/-- With an arm for either case, one of them is chosen. -/
theorem chosenArm_ne_none (v : Int32) (body other : List Layout) :
    State.chosenArm v [(nested ["then"] body).datum, (nested ["else"] other).datum] ≠ none := by
  by_cases hv : v = 0
  · subst hv
    exact fun h => nomatch h
  · have hthen : State.chosenArm v [(nested ["then"] body).datum, (nested ["else"] other).datum] =
        some (nested ["then"] body).datum := by
      rw [State.chosenArm, List.find?_cons_of_pos]
      rw [decide_eq_true hv]
      rfl
    rw [hthen]
    exact Option.some_ne_none _

section Endless

variable {returns : Ty}

mutual

/-- The code of a statement that is sure to return is endless. -/
theorem endless_stmt (s : Stmt Ty) (hs : s.Annotated returns) (hann : s.info.ann ≠ .none)
    {label next : Nat} {code : List Layout} (h : stmt locals label s = .ok (code, next)) :
    Endless (data code) := by
  match s, hs with
  | .assign .., hs | .expr .., hs | .ret _ none, hs | .pass .., hs => exact absurd hs hann
  | .while_ .., hs => exact absurd hs.1 hann
  | .ret info (some value), _ =>
    obtain ⟨word, hvalue, rfl, rfl⟩ := stmt_ret_eq_ok.mp h
    rw [data_lines, List.map_append, ← data_lines]
    exact endless_ret (tame_lines (expr_isFlat hvalue) []) []
  | .cond info test body orElse, ⟨hguarantee, hbody, harm⟩ =>
    have hsure : armGuarantee test body orElse ≠ .none := hguarantee ▸ hann
    match test, orElse, harm with
    | none, orElse, _ => exact endless_stmts body hbody hsure h
    | some test, none, _ => exact absurd rfl hsure
    | some test, some other, harm =>
      obtain ⟨test', htest, body', middle, hbody', orElse', last, horElse, rfl, rfl⟩ :=
        stmt_cond_eq_ok.mp h
      obtain ⟨other', last', hother, rfl, rfl⟩ := arm_some_eq_ok.mp horElse
      -- Both arms are sure to return: the next one, and with it the body of this one.
      rw [armGuarantee] at hsure
      have hnext : other.info.ann ≠ .none := fun hnone => hsure (if_pos hnone)
      rw [if_neg hnext] at hsure
      rw [data_append]
      refine .append_left (tame_lines (expr_isFlat htest) []) (.cond (Instr.instr_form
        (i := .cond [(nested ["then"] body').datum, (nested ["else"] other').datum]) trivial)
        (fun v => chosenArm_ne_none v body' other') ?_)
      refine List.forall_mem_cons.mpr ⟨endless_stmts body hbody hsure hbody', ?_⟩
      exact List.forall_mem_singleton.mpr (endless_stmt other harm hnext hother)

/-- The code of statements that are sure to return is endless. -/
theorem endless_stmts (body : List (Stmt Ty)) (hbody : AllAnnotated returns body)
    (hsure : guarantee body ≠ .none) {label next : Nat} {code : List Layout}
    (h : stmts locals label body = .ok (code, next)) : Endless (data code) := by
  match body, hbody with
  | [], _ => exact absurd rfl hsure
  | s :: rest, ⟨hs, hrest⟩ =>
    obtain ⟨first, middle, hfirst, others, last, hothers, rfl, rfl⟩ := stmts_cons_eq_ok.mp h
    rw [data_append]
    by_cases hann : s.info.ann = .none
    · have hothersSure : guarantee rest ≠ .none := by
        intro hnone
        rw [guarantee, List.foldl_cons, if_pos hann] at hsure
        exact hsure hnone
      exact .append_left (tame_stmt s hfirst []) (endless_stmts rest hrest hothersSure hothers)
    · exact (endless_stmt s hs hann hfirst).append_right _

end

end Endless

end Code

end WatCompiler
