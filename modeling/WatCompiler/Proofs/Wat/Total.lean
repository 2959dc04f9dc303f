import WatCompiler.Proofs.Program.Proper
import WatCompiler.Proofs.Typing.WellTyped
import WatCompiler.Proofs.Wat.Inversion

/-!
# Proper well-typed programs have code

Code can be missing for an operator or a literal that the language lacks, and for a call of `print`
with another number of arguments than one. A proper program has no such operator or literal, and a
well-typed one has no such call (`exists_toWat`).
-/

namespace WatCompiler

namespace Code

variable {P : Position → Prop} {scope : Scope} {locals : List Text}

/-- Only literals that the language lacks have no code. -/
theorem exists_literal {value : Literal} (h : value.isKnown = true) :
    ∃ word, literal value = .ok word := by
  cases value with
  | other kind word => cases h
  | none | true | false | number => exact ⟨_, rfl⟩

/-- Only operators that the language lacks have no code. -/
theorem exists_unary {op : UnaryOp} (h : op ∈ UnaryOp.all) : ∃ code, unary op = .ok code := by
  cases op with
  | other symbol => simp [UnaryOp.all] at h
  | not | negate | plus => exact ⟨_, rfl⟩

theorem exists_binary {op : BinaryOp} (h : op ∈ BinaryOp.all) : ∃ i, binary op = .ok i := by
  cases op with
  | other symbol => simp [BinaryOp.all] at h
  | _ => exact ⟨_, rfl⟩

/-- The scope knows what `print` takes. -/
def Prints (scope : Scope) : Prop := scope.functions.find? "print" = some ⟨[.any], .none⟩

/-- A call of `print` has the one argument that tells how to print. -/
theorem exists_hidden (hscope : Prints scope) {function : Text} {args : List (Expr Ty)}
    {signature : Signature} (hfound : scope.functions.find? function = some signature)
    (hlength : signature.params.length = args.length) :
    ∃ code, hidden function args = .ok code := by
  unfold hidden
  by_cases hprint : function = "print"
  · rw [if_pos hprint]
    rw [hprint, hscope] at hfound
    cases hfound
    obtain ⟨arg, rfl⟩ := List.length_eq_one_iff.mp hlength.symm
    exact ⟨_, rfl⟩
  · rw [if_neg hprint]
    exact ⟨_, rfl⟩

mutual

/-- A proper well-typed expression has code. -/
theorem exists_expr (hscope : Prints scope) (e : Expr Ty) (he : e.Proper P)
    (ht : e.WellTyped scope) : ∃ code, expr locals e = .ok code := by
  match e with
  | .literal info value =>
    obtain ⟨word, hword⟩ := exists_literal he.2
    exact ⟨_, expr_literal_eq_ok.mpr ⟨word, hword, rfl⟩⟩
  | .ident info name => exact ⟨_, rfl⟩
  | .unary info op arg =>
    obtain ⟨code, hcode⟩ := exists_expr hscope arg he.2.2 ht.1
    obtain ⟨more, hmore⟩ := exists_unary he.2.1
    exact ⟨_, expr_unary_eq_ok.mpr ⟨code, hcode, more, hmore, rfl⟩⟩
  | .binary info op lhs rhs =>
    obtain ⟨left, hleft⟩ := exists_expr hscope lhs he.2.2.1 ht.1
    obtain ⟨right, hright⟩ := exists_expr hscope rhs he.2.2.2 ht.2.1
    obtain ⟨i, hi⟩ := exists_binary he.2.1
    exact ⟨_, expr_binary_eq_ok.mpr ⟨left, hleft, right, hright, i, hi, rfl⟩⟩
  | .paren info arg => exact exists_expr hscope arg he.2 ht.1
  | .call info function args =>
    obtain ⟨signature, hfound, hlength, hargs, -⟩ := ht
    obtain ⟨code, hcode⟩ := exists_exprs hscope args he.2.2 hargs
    obtain ⟨more, hmore⟩ := exists_hidden hscope hfound hlength
    exact ⟨_, expr_call_eq_ok.mpr ⟨code, hcode, more, hmore, rfl⟩⟩

theorem exists_exprs (hscope : Prints scope) (args : List (Expr Ty))
    (hargs : Expr.AllProper P args) {params : List Ty} (ht : ArgsTyped scope params args) :
    ∃ code, exprs locals args = .ok code := by
  match args with
  | [] => exact ⟨_, rfl⟩
  | arg :: rest =>
    obtain ⟨first, hfirst⟩ := exists_expr hscope arg hargs.1 ht.1
    obtain ⟨others, hothers⟩ := exists_exprs hscope rest hargs.2 ht.2.2
    exact ⟨_, exprs_cons_eq_ok.mpr ⟨first, hfirst, others, hothers, rfl⟩⟩

end

mutual

/-- A proper well-typed statement has code, whatever its first label. -/
theorem exists_stmt (hscope : Prints scope) (s : Stmt Ty) (hs : s.Proper P)
    (ht : s.WellTyped scope) (label : Nat) : ∃ answer, stmt locals label s = .ok answer := by
  match s with
  | .assign info target value =>
    obtain ⟨code, hcode⟩ := exists_expr hscope value hs.2.2 ht.1
    exact ⟨_, stmt_assign_eq_ok.mpr ⟨code, hcode, rfl, rfl⟩⟩
  | .expr info value =>
    obtain ⟨code, hcode⟩ := exists_expr hscope value hs.2 ht
    exact ⟨_, stmt_expr_eq_ok.mpr ⟨code, hcode, rfl, rfl⟩⟩
  | .ret info none => exact ⟨_, rfl⟩
  | .ret info (some value) =>
    obtain ⟨code, hcode⟩ := exists_expr hscope value (hs.2 value rfl) ht.2.1
    exact ⟨_, stmt_ret_eq_ok.mpr ⟨code, hcode, rfl, rfl⟩⟩
  | .while_ info test body =>
    obtain ⟨code, hcode⟩ := exists_expr hscope test hs.2.1 ht.1
    obtain ⟨⟨lines, next⟩, hlines⟩ := exists_stmts hscope body hs.2.2 ht.2.2 (label + 1)
    exact ⟨_, stmt_while_eq_ok.mpr ⟨code, hcode, lines, next, hlines, rfl, rfl⟩⟩
  | .cond info none body orElse => exact exists_stmts hscope body hs.2.2.1 ht.2.1 label
  | .cond info (some test) body orElse =>
    obtain ⟨code, hcode⟩ := exists_expr hscope test (hs.2.1 test rfl) (ht.1 test rfl).1
    obtain ⟨⟨lines, next⟩, hlines⟩ := exists_stmts hscope body hs.2.2.1 ht.2.1 label
    obtain ⟨⟨more, last⟩, hmore⟩ := exists_arm hscope orElse hs.2.2.2.1 ht.2.2 next
    exact ⟨_, stmt_cond_eq_ok.mpr ⟨code, hcode, lines, next, hlines, more, last, hmore, rfl, rfl⟩⟩
  | .pass info => exact ⟨_, rfl⟩

theorem exists_stmts (hscope : Prints scope) (body : List (Stmt Ty))
    (hbody : Stmt.AllProper P body) (ht : StmtsTyped scope body) (label : Nat) :
    ∃ answer, stmts locals label body = .ok answer := by
  match body with
  | [] => exact ⟨_, rfl⟩
  | s :: rest =>
    obtain ⟨⟨first, next⟩, hfirst⟩ := exists_stmt hscope s hbody.1 ht.1 label
    obtain ⟨⟨others, last⟩, hothers⟩ := exists_stmts hscope rest hbody.2 ht.2 next
    exact ⟨_, stmts_cons_eq_ok.mpr ⟨first, next, hfirst, others, last, hothers, rfl, rfl⟩⟩

theorem exists_arm (hscope : Prints scope) (orElse : Option (Stmt Ty))
    (horElse : Stmt.ArmProper P orElse) (ht : ArmTyped scope orElse) (label : Nat) :
    ∃ answer, arm locals label orElse = .ok answer := by
  match orElse with
  | none => exact ⟨_, rfl⟩
  | some next =>
    obtain ⟨⟨body, last⟩, hbody⟩ := exists_stmt hscope next horElse ht label
    exact ⟨_, arm_some_eq_ok.mpr ⟨body, last, hbody, rfl, rfl⟩⟩

end

/-! ## Modules -/

/-- Every global variable has an initial value. -/
theorem exists_globalFields {vs : List (VarDef Ty)} (hvs : ∀ v ∈ vs, v.Proper P) :
    ∃ fields, globalFields vs = .ok fields := by
  induction vs with
  | nil => exact ⟨_, rfl⟩
  | cons v rest ih =>
    obtain ⟨hv, hrest⟩ := List.forall_mem_cons.mp hvs
    obtain ⟨word, hword⟩ := exists_literal hv.literal
    obtain ⟨others, hothers⟩ := ih hrest
    exact ⟨_, globalFields_cons_eq_ok.mpr
      ⟨_, globalField_eq_ok.mpr ⟨word, hword, rfl⟩, others, hothers, rfl⟩⟩

theorem exists_initialValues {vs : List (VarDef Ty)} (hvs : ∀ v ∈ vs, v.Proper P) :
    ∃ code, initialValues vs = .ok code := by
  induction vs with
  | nil => exact ⟨_, rfl⟩
  | cons v rest ih =>
    obtain ⟨hv, hrest⟩ := List.forall_mem_cons.mp hvs
    obtain ⟨word, hword⟩ := exists_literal hv.literal
    obtain ⟨others, hothers⟩ := ih hrest
    exact ⟨_, initialValues_cons_eq_ok.mpr ⟨word, hword, others, hothers, rfl⟩⟩

/-- Every function of a proper well-typed program has code. -/
theorem exists_functionFields (hscope : Prints scope) {fs : List (FuncDef Ty)}
    (hfs : ∀ f ∈ fs, f.Proper P) (ht : ∀ f ∈ fs, f.WellTyped scope) :
    ∃ fields, functionFields fs = .ok fields := by
  induction fs with
  | nil => exact ⟨_, rfl⟩
  | cons f rest ih =>
    obtain ⟨hf, hrest⟩ := List.forall_mem_cons.mp hfs
    obtain ⟨hft, htrest⟩ := List.forall_mem_cons.mp ht
    -- A function sees the functions that its program sees.
    have hinner : Prints (f.scope scope) := hscope
    obtain ⟨init, hinit⟩ := exists_initialValues hf.locals
    obtain ⟨⟨body, next⟩, hbody⟩ := exists_stmts hinner f.stmts hf.stmts hft.body 1
    obtain ⟨others, hothers⟩ := ih hrest htrest
    exact ⟨_, functionFields_cons_eq_ok.mpr
      ⟨_, functionField_eq_ok.mpr ⟨init, hinit, body, next, hbody, rfl⟩, others, hothers, rfl⟩⟩

end Code

/-- A proper well-typed program has code. -/
theorem exists_toWat {P : Position → Prop} {p : Program Ty} (hp : p.Proper P) (ht : p.WellTyped) :
    ∃ wat, p.toWat = .ok wat := by
  have hscope : Code.Prints p.scope := rfl
  obtain ⟨globals, hglobals⟩ := Code.exists_globalFields hp.globals
  obtain ⟨functions, hfunctions⟩ := Code.exists_functionFields hscope hp.functions ht.functions
  obtain ⟨⟨code, next⟩, hcode⟩ := Code.exists_stmts hscope p.stmts hp.stmts ht.body 1
  have hentry := Code.entryField_eq_ok.mpr ⟨code, next, hcode, rfl⟩
  have hlayout := Code.toLayout_eq_ok.mpr ⟨globals, hglobals, functions, hfunctions, _, hentry, rfl⟩
  exact ⟨_, bind_eq_ok.mpr ⟨_, hlayout, rfl⟩⟩

end WatCompiler
