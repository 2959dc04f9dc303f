import WatCompiler.Proofs.Guarantee.Statements
import WatCompiler.Proofs.Program.Parts
import WatCompiler.Proofs.Wat.Loading

/-!
# The globals that code sets

`Writes P` says of an instruction that it sets only globals with the property `P`, at any depth. The
code of an expression sets none (`expr_isValue`), and the code of statements sets those that the
statements assign to and that are not variables of their function (`writes_stmts`).
-/

namespace WatCompiler

theorem Instr.IsValue.ne_globalSet {i : Instr} (h : i.IsValue) (name : Text) :
    i ≠ .globalSet name := by
  rintro rfl
  exact h

namespace Code

open Layout (data)

/-- The instruction sets only globals with the property. -/
inductive Writes (P : Text → Prop) : Datum → Prop
  | flat {d : Datum} (instr : d.instr.IsFlat) (set : ∀ name, d.instr = .globalSet name → P name) :
      Writes P d
  | branch {d : Datum} {label : Text} (instr : d.instr = .br label ∨ d.instr = .brIf label) :
      Writes P d
  | block {d label : Datum} {body : List Datum} (instr : d.instr = .block (some label) body)
      (inner : ∀ x ∈ body, Writes P x) : Writes P d
  | loop {d label : Datum} {body : List Datum} (instr : d.instr = .loop (some label) body)
      (inner : ∀ x ∈ body, Writes P x) : Writes P d
  | cond {d : Datum} {arms : List Datum} (instr : d.instr = .cond arms)
      (inner : ∀ arm ∈ arms, ∀ x ∈ arm.items.tail, Writes P x) : Writes P d

namespace Writes

variable {P : Text → Prop} {d label : Datum} {body : List Datum}

/-- An instruction that writes a global variable writes one of `P`. -/
theorem of_globalSet (h : Writes P d) {name : Text} (hd : d.instr = .globalSet name) : P name := by
  cases h with
  | flat _ set => exact set name hd
  | branch instr => rcases instr with instr | instr <;> cases hd.symm.trans instr
  | block instr | loop instr | cond instr => cases hd.symm.trans instr

theorem of_block (h : Writes P d) (hd : d.instr = .block (some label) body) :
    ∀ x ∈ body, Writes P x := by
  cases h with
  | block instr inner =>
    cases hd.symm.trans instr
    exact inner
  | _ => simp_all [Instr.IsFlat]

theorem of_loop (h : Writes P d) (hd : d.instr = .loop (some label) body) :
    ∀ x ∈ body, Writes P x := by
  cases h with
  | loop instr inner =>
    cases hd.symm.trans instr
    exact inner
  | _ => simp_all [Instr.IsFlat]

/-- The instructions in both arms of a conditional. -/
theorem of_cond (h : Writes P d) {arms : List Datum} (hd : d.instr = .cond arms) :
    ∀ arm ∈ arms, ∀ x ∈ arm.items.tail, Writes P x := by
  cases h with
  | cond instr inner =>
    cases hd.symm.trans instr
    exact inner
  | _ => simp_all [Instr.IsFlat]

end Writes

/-! ## Generated code -/

variable {locals : List Text} {P : Text → Prop}

theorem writes_lines {code : List Instr}
    (h : ∀ i ∈ code, i.IsFlat ∧ ∀ name, i = .globalSet name → P name) :
    ∀ d ∈ data (lines code), Writes P d := by
  rw [data_lines]
  intro d hd
  obtain ⟨i, hi, rfl⟩ := List.mem_map.mp hd
  obtain ⟨hflat, hset⟩ := h i hi
  refine .flat ?_ ?_
  · rw [hflat.instr_form]
    exact hflat
  · rw [hflat.instr_form]
    exact hset

/-- The code of an expression with more instructions behind it. -/
theorem writes_expr_append {e : Expr Ty} {code more : List Instr} (h : expr locals e = .ok code)
    (hmore : ∀ i ∈ more, i.IsFlat ∧ ∀ name, i = .globalSet name → P name) :
    ∀ d ∈ data (lines (code ++ more)), Writes P d := by
  refine writes_lines (List.forall_mem_append.mpr ⟨?_, hmore⟩)
  intro i hi
  have hvalue := expr_isValue e h i hi
  exact ⟨hvalue.isFlat, fun name hname => absurd hname (hvalue.ne_globalSet name)⟩

/-- Expressions write no global variable. -/
theorem writes_expr {e : Expr Ty} {code : List Instr} (h : expr locals e = .ok code) :
    ∀ d ∈ data (lines code), Writes P d := by
  have happend := writes_expr_append (P := P) h (List.forall_mem_nil _)
  rwa [List.append_nil] at happend

/-- The code of a loop sets what its body sets. -/
theorem writes_round {test : Expr Ty} {code : List Instr} (htest : expr locals test = .ok code)
    (label : Nat) {body : List Layout} (hbody : ∀ d ∈ data body, Writes P d) :
    ∀ d ∈ data (lines (code ++ [Instr.const 1, .arith .xor, .brIf (blockLabel label)]) ++ body ++
      lines [.br (loopLabel label)]), Writes P d := by
  have hexit : Writes P (Instr.brIf (blockLabel label)).form :=
    .branch (.inr (Instr.instr_form trivial))
  have hagain : Writes P (Instr.br (loopLabel label)).form :=
    .branch (.inl (Instr.instr_form trivial))
  have hnegation : ∀ d ∈ data (lines [.const 1, .arith .xor]), Writes P d :=
    writes_lines (by simp [Instr.IsFlat])
  -- The branch out of the loop is the only instruction behind the test that is not flat.
  rw [data_append, data_append, data_lines, data_lines, List.map_append, ← data_lines]
  refine List.forall_mem_append.mpr ⟨List.forall_mem_append.mpr
    ⟨List.forall_mem_append.mpr ⟨writes_expr htest, ?_⟩, hbody⟩, ?_⟩
  · obtain ⟨hone, hxor⟩ := List.forall_mem_cons.mp hnegation
    exact List.forall_mem_cons.mpr ⟨hone, List.forall_mem_cons.mpr
      ⟨List.forall_mem_singleton.mp hxor, List.forall_mem_singleton.mpr hexit⟩⟩
  · exact List.forall_mem_singleton.mpr hagain

/-- A local variable is no global one. -/
theorem writes_set {target : Text} (h : target ∈ locals ∨ P (identifier target)) :
    (set locals target).IsFlat ∧ ∀ name, set locals target = .globalSet name → P name := by
  refine ⟨set_isFlat target, ?_⟩
  intro name hname
  unfold set at hname
  split at hname
  · cases hname
  · next hglobal =>
    cases hname
    exact h.resolve_left hglobal

/-- Every assignment among the statements is to a variable of the function or to a global with the
property. -/
def AssignsTo (locals : List Text) (P : Text → Prop) (ss : List (Stmt Ty)) : Prop :=
  ∀ info target value, Stmt.assign info target value ∈ ss → target ∈ locals ∨ P (identifier target)

theorem AssignsTo.append {first others : List (Stmt Ty)}
    (h : AssignsTo locals P (first ++ others)) :
    AssignsTo locals P first ∧ AssignsTo locals P others :=
  ⟨fun info target value hmem => h info target value (List.mem_append_left _ hmem),
    fun info target value hmem => h info target value (List.mem_append_right _ hmem)⟩

mutual

/-- The code of a statement writes what its assignments name, and nothing else. -/
theorem writes_stmt (s : Stmt Ty) {label next : Nat} {code : List Layout}
    (h : stmt locals label s = .ok (code, next)) (hs : AssignsTo locals P (s :: s.inner)) :
    ∀ d ∈ data code, Writes P d := by
  match s with
  | .assign info target value =>
    obtain ⟨word, hvalue, rfl, rfl⟩ := stmt_assign_eq_ok.mp h
    have htarget := hs info target value List.mem_cons_self
    exact writes_expr_append hvalue (List.forall_mem_singleton.mpr (writes_set htarget))
  | .expr info value =>
    obtain ⟨word, hvalue, rfl, rfl⟩ := stmt_expr_eq_ok.mp h
    exact writes_expr_append hvalue (by simp [Instr.IsFlat])
  | .ret info none =>
    cases h
    exact writes_lines (by simp [Instr.IsFlat])
  | .ret info (some value) =>
    obtain ⟨word, hvalue, rfl, rfl⟩ := stmt_ret_eq_ok.mp h
    exact writes_expr_append hvalue (by simp [Instr.IsFlat])
  | .while_ info test body =>
    obtain ⟨test', htest, body', last, hbody, rfl, rfl⟩ := stmt_while_eq_ok.mp h
    have hinner := writes_stmts body hbody
      fun info target value hmem => hs info target value (List.mem_cons_of_mem _ hmem)
    have hloop : Writes P (nested ["loop", loopLabel label] _).datum :=
      .loop (Instr.instr_form (i := .loop (some (.symbol (loopLabel label))) _) trivial)
        (writes_round htest label hinner)
    exact List.forall_mem_singleton.mpr
      (.block (Instr.instr_form (i := .block (some (.symbol (blockLabel label))) _) trivial)
        (List.forall_mem_singleton.mpr hloop))
  | .cond info none body orElse =>
    -- The arm without a test is the last one, its code is that of its body.
    have hbody : AssignsTo locals P (innerAll body) := fun info target value hmem =>
      hs info target value (List.mem_cons_of_mem _ (List.mem_append_left _ hmem))
    exact writes_stmts body h hbody
  | .cond info (some test) body orElse =>
    obtain ⟨test', htest, body', middle, hbody, orElse', last, horElse, rfl, rfl⟩ :=
      stmt_cond_eq_ok.mp h
    have hinner : AssignsTo locals P (innerAll body ++ innerElse orElse) :=
      fun info target value hmem => hs info target value (List.mem_cons_of_mem _ hmem)
    rw [data_append]
    refine List.forall_mem_append.mpr ⟨writes_expr htest, ?_⟩
    refine List.forall_mem_singleton.mpr (.cond (Instr.instr_form
      (i := .cond ((nested ["then"] body').datum :: data orElse')) trivial) ?_)
    exact List.forall_mem_cons.mpr
      ⟨writes_stmts body hbody hinner.append.1, writes_arm orElse horElse hinner.append.2⟩
  | .pass info =>
    cases h
    exact List.forall_mem_nil _

/-- The code of statements sets the globals that they assign to. -/
theorem writes_stmts (body : List (Stmt Ty)) {label next : Nat} {code : List Layout}
    (h : stmts locals label body = .ok (code, next)) (hbody : AssignsTo locals P (innerAll body)) :
    ∀ d ∈ data code, Writes P d := by
  match body with
  | [] =>
    cases h
    exact List.forall_mem_nil _
  | s :: rest =>
    obtain ⟨first, middle, hfirst, others, last, hothers, rfl, rfl⟩ := stmts_cons_eq_ok.mp h
    have hinner : AssignsTo locals P ((s :: s.inner) ++ innerAll rest) := hbody
    rw [data_append]
    exact List.forall_mem_append.mpr
      ⟨writes_stmt s hfirst hinner.append.1, writes_stmts rest hothers hinner.append.2⟩

theorem writes_arm (orElse : Option (Stmt Ty)) {label next : Nat} {code : List Layout}
    (h : arm locals label orElse = .ok (code, next))
    (harm : AssignsTo locals P (innerElse orElse)) :
    ∀ arm ∈ data code, ∀ d ∈ arm.items.tail, Writes P d := by
  match orElse with
  | none =>
    cases h
    exact List.forall_mem_nil _
  | some s =>
    obtain ⟨body, last, hbody, rfl, rfl⟩ := arm_some_eq_ok.mp h
    exact List.forall_mem_singleton.mpr (writes_stmt s hbody harm)

end

end Code

end WatCompiler
