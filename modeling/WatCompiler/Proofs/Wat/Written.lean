import WatCompiler.Proofs.Typing.WellTyped
import WatCompiler.Proofs.Wat.Instr
import WatCompiler.Proofs.Wat.Inversion

/-!
# Generated code can be read back

The code of a well-typed program whose declared names are identifiers consists of data that have a
written form, each headed by the name of an instruction (`stmts_written`).
-/

namespace WatCompiler

open Datum (isSymbol AllWellFormed)
open Token (isIdentifier)

/-- The names in scope are identifiers. -/
structure Scope.Named (scope : Scope) : Prop where
  vars : ∀ {name type}, scope.lookup? name = some type → isIdentifier name = true
  functions : ∀ {name signature}, scope.functions.find? name = some signature →
    isIdentifier name = true

/-- A variable that may be assigned to may be read. -/
theorem Scope.lookup?_of_assignable? {scope : Scope} {name : Text} {type : Ty}
    (h : scope.assignable? name = some type) : scope.lookup? name = some type := by
  unfold Scope.assignable? at h
  unfold Scope.lookup?
  cases hlocal : scope.local? name with
  | some found =>
    rw [hlocal] at h
    exact h
  | none =>
    rw [hlocal] at h
    by_cases hfunction : scope.inFunction = true
    · rw [if_pos hfunction] at h
      cases h
    · rw [if_neg hfunction] at h
      exact h

/-- A datum that has a written form and is headed by the name of an instruction. -/
structure Datum.Written (d : Datum) : Prop where
  wellFormed : d.WellFormed
  head : ∃ op : Opcode, d.head = op.name

/-- An instruction with names is written so that it can be read back. -/
theorem Instr.form_written {i : Instr} (h : i.IsNamed) : i.form.Written := by
  refine ⟨form_wellFormed h, ?_⟩
  cases i with
  | const => exact ⟨.const, rfl⟩
  | localGet => exact ⟨.localGet, rfl⟩
  | localSet => exact ⟨.localSet, rfl⟩
  | globalGet => exact ⟨.globalGet, rfl⟩
  | globalSet => exact ⟨.globalSet, rfl⟩
  | call => exact ⟨.call, rfl⟩
  | ret => exact ⟨.ret, rfl⟩
  | br => exact ⟨.br, rfl⟩
  | brIf => exact ⟨.brIf, rfl⟩
  | arith op => exact ⟨.arith op, rfl⟩
  | _ => exact h.elim

namespace Code

open Layout (data)

variable {scope : Scope} {locals : List Text}

theorem isSymbol_scratch : isSymbol scratch = true := by decide

/-! ## Expressions -/

/-- Reading a variable names it. -/
theorem get_isNamed (locals : List Text) {name : Text} (h : isIdentifier name = true) :
    (get locals name).IsNamed := by
  unfold get
  split <;> exact Instr.isSymbol_identifier h

theorem set_isNamed (locals : List Text) {name : Text} (h : isIdentifier name = true) :
    (set locals name).IsNamed := by
  unfold set
  split <;> exact Instr.isSymbol_identifier h

/-- The code of operators has no names but those of instructions. -/
theorem unary_isNamed {op : UnaryOp} {code : List Instr} (h : unary op = .ok code) :
    ∀ i ∈ code, i.IsNamed := by
  cases op with
  | other => cases h
  | _ => cases h; simp [Instr.IsNamed]

theorem hidden_isNamed {function : Text} {args : List (Expr Ty)} {code : List Instr}
    (h : hidden function args = .ok code) : ∀ i ∈ code, i.IsNamed := by
  unfold hidden at h
  split at h
  · split at h
    · cases h
      simp [Instr.IsNamed]
    · cases h
  · cases h
    simp

mutual

/-- The names in the code of an expression are those in its scope. -/
theorem expr_isNamed (hs : scope.Named) (e : Expr Ty) (ht : e.WellTyped scope)
    {code : List Instr} (h : expr locals e = .ok code) : ∀ i ∈ code, i.IsNamed := by
  match e, ht with
  | .literal info value, _ =>
    obtain ⟨word, -, rfl⟩ := expr_literal_eq_ok.mp h
    simp [Instr.IsNamed]
  | .ident info name, ht =>
    cases h
    exact List.forall_mem_singleton.mpr (get_isNamed locals (hs.vars ht))
  | .unary info op arg, ht =>
    obtain ⟨first, hfirst, more, hmore, rfl⟩ := expr_unary_eq_ok.mp h
    exact List.forall_mem_append.mpr ⟨expr_isNamed hs arg ht.1 hfirst, unary_isNamed hmore⟩
  | .binary info op lhs rhs, ht =>
    obtain ⟨left, hleft, right, hright, word, -, rfl⟩ := expr_binary_eq_ok.mp h
    refine List.forall_mem_append.mpr ⟨List.forall_mem_append.mpr ⟨?_, ?_⟩, ?_⟩
    · exact expr_isNamed hs lhs ht.1 hleft
    · exact expr_isNamed hs rhs ht.2.1 hright
    · simp [Instr.IsNamed]
  | .paren info arg, ht => exact expr_isNamed hs arg ht.1 h
  | .call info function args, ht =>
    obtain ⟨signature, hfunction, -, hargs, -⟩ := ht
    obtain ⟨values, hvalues, more, hmore, rfl⟩ := expr_call_eq_ok.mp h
    refine List.forall_mem_append.mpr ⟨List.forall_mem_append.mpr ⟨?_, hidden_isNamed hmore⟩, ?_⟩
    · exact exprs_isNamed hs args hargs hvalues
    · exact List.forall_mem_singleton.mpr (Instr.isSymbol_identifier (hs.functions hfunction))

theorem exprs_isNamed (hs : scope.Named) (args : List (Expr Ty)) {params : List Ty}
    (ht : ArgsTyped scope params args) {code : List Instr} (h : exprs locals args = .ok code) :
    ∀ i ∈ code, i.IsNamed := by
  match args, ht with
  | [], _ =>
    cases h
    simp
  | e :: rest, ht =>
    obtain ⟨first, hfirst, others, hothers, rfl⟩ := exprs_cons_eq_ok.mp h
    exact List.forall_mem_append.mpr
      ⟨expr_isNamed hs e ht.1 hfirst, exprs_isNamed hs rest ht.2.2 hothers⟩

end

/-! ## Statements -/

/-- The data of several layouts, one by one. -/
theorem data_eq_map (body : List Layout) : data body = body.map Layout.datum := by
  induction body with
  | nil => rfl
  | cons first rest ih => rw [data, ih, List.map_cons]

theorem data_append (body more : List Layout) : data (body ++ more) = data body ++ data more := by
  simp only [data_eq_map, List.map_append]

/-- Lines of instructions are the forms of the instructions. -/
theorem data_lines (code : List Instr) : data (lines code) = code.map Instr.form := by
  rw [data_eq_map, lines, List.map_map]
  rfl

/-- Instructions with names are written so that they can be read back. -/
theorem lines_written {code : List Instr} (h : ∀ i ∈ code, i.IsNamed) :
    ∀ d ∈ data (lines code), d.Written := by
  rw [data_lines]
  intro d hd
  obtain ⟨i, hi, rfl⟩ := List.mem_map.mp hd
  exact Instr.form_written (h i hi)

/-- A form with a head and a body that has a written form. -/
theorem form_wellFormed {heads : List Text} (hheads : ∀ t ∈ heads, isSymbol t = true)
    {body : List Datum} (hbody : ∀ d ∈ body, d.WellFormed) :
    (Datum.form (heads.map .symbol ++ body)).WellFormed := by
  refine ⟨Datum.allWellFormed_iff.mpr ?_, trivial, List.nodup_nil⟩
  intro d hd
  rcases List.mem_append.mp hd with hd | hd
  · obtain ⟨t, ht, rfl⟩ := List.mem_map.mp hd
    exact hheads t ht
  · exact hbody d hd

/-- What a block starts with: its operation and its label. -/
theorem heads_isSymbol (op : Opcode) {label : Text} (h : isSymbol label = true) :
    ∀ t ∈ [op.name, label], isSymbol t = true :=
  List.forall_mem_cons.mpr ⟨Instr.isSymbol_name op, List.forall_mem_singleton.mpr h⟩

mutual

/-- The code of a statement is written so that it can be read back. -/
theorem stmt_written (hs : scope.Named) (s : Stmt Ty) (ht : s.WellTyped scope) {label next : Nat}
    {code : List Layout} (h : stmt locals label s = .ok (code, next)) :
    ∀ d ∈ data code, d.Written := by
  match s, ht with
  | .assign info target value, ht =>
    obtain ⟨word, hvalue, rfl, rfl⟩ := stmt_assign_eq_ok.mp h
    have htarget := hs.vars (Scope.lookup?_of_assignable? ht.2)
    exact lines_written (List.forall_mem_append.mpr ⟨expr_isNamed hs value ht.1 hvalue,
      List.forall_mem_singleton.mpr (set_isNamed locals htarget)⟩)
  | .expr info value, ht =>
    obtain ⟨word, hvalue, rfl, rfl⟩ := stmt_expr_eq_ok.mp h
    exact lines_written (List.forall_mem_append.mpr ⟨expr_isNamed hs value ht hvalue,
      List.forall_mem_singleton.mpr isSymbol_scratch⟩)
  | .ret info none, _ =>
    cases h
    exact lines_written (by simp [Instr.IsNamed])
  | .ret info (some value), ht =>
    obtain ⟨word, hvalue, rfl, rfl⟩ := stmt_ret_eq_ok.mp h
    exact lines_written (List.forall_mem_append.mpr ⟨expr_isNamed hs value ht.2.1 hvalue,
      List.forall_mem_singleton.mpr trivial⟩)
  | .while_ info test body, ht =>
    obtain ⟨test', htest, body', last, hbody, rfl, rfl⟩ := stmt_while_eq_ok.mp h
    have hround : ∀ d ∈ data
        (lines (test' ++ [Instr.const 1, .arith .xor, .brIf (blockLabel label)]) ++ body' ++
          lines [.br (loopLabel label)]), d.WellFormed := by
      rw [data_append, data_append]
      intro d hd
      refine Datum.Written.wellFormed ?_
      rcases List.mem_append.mp hd with hd | hd
      · rcases List.mem_append.mp hd with hd | hd
        · refine lines_written (List.forall_mem_append.mpr ⟨expr_isNamed hs test ht.1 htest, ?_⟩) d
            hd
          simp [Instr.IsNamed, Instr.isSymbol_blockLabel]
        · exact stmts_written hs body ht.2.2 hbody d hd
      · refine lines_written ?_ d hd
        simp [Instr.IsNamed, Instr.isSymbol_loopLabel]
    have hloop := form_wellFormed (heads_isSymbol .loop (Instr.isSymbol_loopLabel label)) hround
    refine List.forall_mem_singleton.mpr ⟨?_, .block, rfl⟩
    exact form_wellFormed (heads_isSymbol .block (Instr.isSymbol_blockLabel label))
      (List.forall_mem_singleton.mpr hloop)
  | .cond info none body orElse, ht => exact stmts_written hs body ht.2.1 h
  | .cond info (some test) body orElse, ht =>
    obtain ⟨test', htest, body', middle, hbody, orElse', last, horElse, rfl, rfl⟩ :=
      stmt_cond_eq_ok.mp h
    have hthen : (nested ["then"] body').datum.WellFormed :=
      form_wellFormed (by decide) fun d hd => (stmts_written hs body ht.2.1 hbody d hd).wellFormed
    rw [data_append]
    refine List.forall_mem_append.mpr ⟨?_, List.forall_mem_singleton.mpr ⟨?_, .cond, rfl⟩⟩
    · exact lines_written (expr_isNamed hs test (ht.1 test rfl).1 htest)
    · exact form_wellFormed (by decide)
        (List.forall_mem_cons.mpr ⟨hthen, arm_written hs orElse ht.2.2 horElse⟩)
  | .pass info, _ =>
    cases h
    exact fun _ hd => (nomatch hd)

theorem stmts_written (hs : scope.Named) (body : List (Stmt Ty)) (ht : StmtsTyped scope body)
    {label next : Nat} {code : List Layout} (h : stmts locals label body = .ok (code, next)) :
    ∀ d ∈ data code, d.Written := by
  match body, ht with
  | [], _ =>
    cases h
    exact fun _ hd => (nomatch hd)
  | s :: rest, ht =>
    obtain ⟨first, middle, hfirst, others, last, hothers, rfl, rfl⟩ := stmts_cons_eq_ok.mp h
    rw [data_append]
    exact List.forall_mem_append.mpr
      ⟨stmt_written hs s ht.1 hfirst, stmts_written hs rest ht.2 hothers⟩

theorem arm_written (hs : scope.Named) (orElse : Option (Stmt Ty)) (ht : ArmTyped scope orElse)
    {label next : Nat} {code : List Layout} (h : arm locals label orElse = .ok (code, next)) :
    ∀ d ∈ data code, d.WellFormed := by
  match orElse, ht with
  | none, _ =>
    cases h
    exact fun _ hd => (nomatch hd)
  | some s, ht =>
    obtain ⟨body, last, hbody, rfl, rfl⟩ := arm_some_eq_ok.mp h
    refine List.forall_mem_singleton.mpr (form_wellFormed (by decide) ?_)
    exact fun d hd => (stmt_written hs s ht hbody d hd).wellFormed

end

end Code

end WatCompiler
