import WatCompiler.Proofs.Validation.Forms
import WatCompiler.Proofs.Wat.Written

/-!
# Generated code is valid

The code of an expression leaves one operand more than it found (`seq_expr`), the code of statements
as many as it found (`seq_stmts`), whatever code follows and also where it is never reached. The
module and the function only have to declare what is in scope.
-/

namespace WatCompiler.Code

open Validation (seq declared)
open Layout (data)

/-- The module and the function declare what is in scope. The names in `locals` are the function's
own. A call of `print` passes one word more than it has arguments. -/
structure Declares (scope : Scope) (locals : List Text) (m : Module) (f : Func) : Prop where
  own : ∀ name, name ∈ locals ↔ (scope.local? name).isSome = true
  locals : ∀ {name}, name ∈ locals → identifier name ∈ declared f
  scratch : scratch ∈ declared f
  globals : ∀ {name type}, scope.globals.find? name = some type →
    m.globals.has (identifier name) = true
  functions : ∀ {name signature}, scope.functions.find? name = some signature →
    m.signature? (identifier name) =
      some (signature.params.length + if name = "print" then 1 else 0, 1)
  results : scope.inFunction = true → f.results = 1

variable {scope : Scope} {locals : List Text} {m : Module} {f : Func} {labels : List Text}

theorem Declares.global_of_lookup? (hd : Declares scope locals m f) {name : Text} {type : Ty}
    (h : scope.lookup? name = some type) (hname : name ∉ locals) :
    m.globals.has (identifier name) = true := by
  have hlocal : scope.local? name = none := by
    rw [hd.own, Option.isSome_iff_ne_none, ne_eq, not_not] at hname
    exact hname
  rw [Scope.lookup?, hlocal] at h
  exact hd.globals h

theorem seq_get (hd : Declares scope locals m f) {name : Text} {type : Ty}
    (h : scope.lookup? name = some type) (n : Nat) (u : Bool) (rest : List Datum) :
    seq m f labels ⟨n, u⟩ ((get locals name).form :: rest) = seq m f labels ⟨n + 1, u⟩ rest := by
  unfold get
  split
  · next hname => exact Validation.seq_localGet (hd.locals hname)
  · next hname => exact Validation.seq_globalGet (hd.global_of_lookup? h hname)

theorem seq_set (hd : Declares scope locals m f) {name : Text} {type : Ty}
    (h : scope.lookup? name = some type) (n : Nat) (u : Bool) (rest : List Datum) :
    seq m f labels ⟨n + 1, u⟩ ((set locals name).form :: rest) = seq m f labels ⟨n, u⟩ rest := by
  unfold set
  split
  · next hname => exact Validation.seq_localSet (hd.locals hname)
  · next hname => exact Validation.seq_globalSet (hd.global_of_lookup? h hname)

theorem seq_unary {op : UnaryOp} {code : List Instr} (h : unary op = .ok code) (n : Nat) (u : Bool)
    (rest : List Datum) :
    seq m f labels ⟨n + 1, u⟩ (code.map Instr.form ++ rest) = seq m f labels ⟨n + 1, u⟩ rest := by
  cases op with
  | not =>
    cases h
    exact (Validation.seq_const 1).trans (Validation.seq_arith .xor)
  | negate =>
    cases h
    exact (Validation.seq_const (-1)).trans (Validation.seq_arith .mul)
  | plus =>
    cases h
    rfl
  | other => cases h

/-- A call passes as many words as the callee takes. -/
theorem seq_hidden {function : Text} {args : List (Expr Ty)} {code : List Instr}
    (h : hidden function args = .ok code) (n : Nat) (u : Bool) (rest : List Datum) :
    seq m f labels ⟨n, u⟩ (code.map Instr.form ++ rest) =
      seq m f labels ⟨n + if function = "print" then 1 else 0, u⟩ rest := by
  unfold hidden at h
  split at h
  · next hprint =>
    rw [if_pos hprint]
    split at h
    · cases h
      exact Validation.seq_const _
    · cases h
  · next hprint =>
    rw [if_neg hprint]
    cases h
    rfl

mutual

/-- The code of an expression leaves its value. -/
theorem seq_expr (hd : Declares scope locals m f) (e : Expr Ty) (ht : e.WellTyped scope)
    {code : List Instr} (h : expr locals e = .ok code) (n : Nat) (u : Bool) (rest : List Datum) :
    seq m f labels ⟨n, u⟩ (code.map Instr.form ++ rest) = seq m f labels ⟨n + 1, u⟩ rest := by
  match e, ht with
  | .literal info value, _ =>
    obtain ⟨word, -, rfl⟩ := expr_literal_eq_ok.mp h
    exact Validation.seq_const word
  | .ident info name, ht =>
    cases h
    exact seq_get hd ht n u rest
  | .unary info op arg, ht =>
    obtain ⟨first, hfirst, more, hmore, rfl⟩ := expr_unary_eq_ok.mp h
    rw [List.map_append, List.append_assoc, seq_expr hd arg ht.1 hfirst, seq_unary hmore]
  | .binary info op lhs rhs, ht =>
    obtain ⟨left, hleft, right, hright, word, -, rfl⟩ := expr_binary_eq_ok.mp h
    rw [List.map_append, List.map_append, List.append_assoc, List.append_assoc,
      seq_expr hd lhs ht.1 hleft, seq_expr hd rhs ht.2.1 hright]
    exact Validation.seq_arith word
  | .paren info arg, ht => exact seq_expr hd arg ht.1 h n u rest
  | .call info function args, ht =>
    obtain ⟨signature, hfunction, hlen, hargs, -⟩ := ht
    obtain ⟨values, hvalues, more, hmore, rfl⟩ := expr_call_eq_ok.mp h
    rw [List.map_append, List.map_append, List.append_assoc, List.append_assoc,
      seq_exprs hd args hargs hvalues, seq_hidden hmore, Nat.add_assoc, ← hlen]
    exact Validation.seq_call (hd.functions hfunction)

/-- The code of arguments leaves their values. -/
theorem seq_exprs (hd : Declares scope locals m f) (args : List (Expr Ty)) {params : List Ty}
    (ht : ArgsTyped scope params args) {code : List Instr} (h : exprs locals args = .ok code)
    (n : Nat) (u : Bool) (rest : List Datum) :
    seq m f labels ⟨n, u⟩ (code.map Instr.form ++ rest) =
      seq m f labels ⟨n + args.length, u⟩ rest := by
  match args, ht with
  | [], _ =>
    cases h
    rfl
  | e :: others, ht =>
    obtain ⟨first, hfirst, more, hmore, rfl⟩ := exprs_cons_eq_ok.mp h
    rw [List.map_append, List.append_assoc, seq_expr hd e ht.1 hfirst,
      seq_exprs hd others ht.2.2 hmore, Nat.add_assoc, Nat.add_comm 1, List.length_cons]

end

/-! ## Statements -/

theorem blockLabel_ne_nil (n : Nat) : blockLabel n ≠ [] :=
  Datum.ne_nil_of_isSymbol (Instr.isSymbol_blockLabel n)

theorem loopLabel_ne_nil (n : Nat) : loopLabel n ≠ [] :=
  Datum.ne_nil_of_isSymbol (Instr.isSymbol_loopLabel n)

theorem blockLabel_ne_loopLabel (m n : Nat) : blockLabel m ≠ loopLabel n := by
  intro h
  have hthird : some (Text.byte 'b') = some (Text.byte 'l') := congrArg (fun label => label[2]?) h
  exact absurd hthird (by decide)

theorem nested_of_seq {label : Text} {body : List Datum}
    (h : ∃ u, seq m f (label :: labels) ⟨0, false⟩ (body ++ []) =
      seq m f (label :: labels) ⟨0, u⟩ []) :
    Validation.nested m f labels label body = .ok () := by
  obtain ⟨u, hu⟩ := h
  rw [List.append_nil, Validation.seq_nil] at hu
  exact Validation.nested_eq_ok hu

/-- One round of a loop: the test, the branch out of the loop, the body and the branch back. -/
theorem nested_round (hd : Declares scope locals m f) {test : Expr Ty} (ht : test.WellTyped scope)
    {code : List Instr} (htest : expr locals test = .ok code) (label : Nat) (labels : List Text)
    {body : List Layout}
    (hbody : ∀ rest, ∃ u,
      seq m f (loopLabel label :: blockLabel label :: labels) ⟨0, false⟩ (data body ++ rest) =
        seq m f (loopLabel label :: blockLabel label :: labels) ⟨0, u⟩ rest) :
    Validation.nested m f (blockLabel label :: labels) (loopLabel label)
      (data (lines (code ++ [Instr.const 1, .arith .xor, .brIf (blockLabel label)]) ++ body ++
        lines [.br (loopLabel label)])) = .ok () := by
  have hexit : Validation.hasLabel (loopLabel label :: blockLabel label :: labels)
      (blockLabel label) = true :=
    Validation.hasLabel_of_mem (blockLabel_ne_nil label)
      (List.mem_cons_of_mem _ List.mem_cons_self)
  have hagain : Validation.hasLabel (loopLabel label :: blockLabel label :: labels)
      (loopLabel label) = true :=
    Validation.hasLabel_of_mem (loopLabel_ne_nil label) List.mem_cons_self
  obtain ⟨u, hu⟩ := hbody ((lines [.br (loopLabel label)]).map Layout.datum)
  refine nested_of_seq ⟨true, ?_⟩
  rw [List.append_nil, data_append, data_append, data_lines, List.map_append, List.append_assoc,
    List.append_assoc, seq_expr hd test ht htest]
  refine (Validation.seq_const 1).trans ((Validation.seq_arith .xor).trans ?_)
  refine (Validation.seq_brIf hexit).trans ?_
  rw [data_eq_map (lines _)]
  exact hu.trans (Validation.seq_br hagain)

mutual

/-- The code of a statement leaves nothing. -/
theorem seq_stmt (hd : Declares scope locals m f) (s : Stmt Ty) (ht : s.WellTyped scope)
    {label next : Nat} {code : List Layout} (h : stmt locals label s = .ok (code, next))
    (labels : List Text) (u : Bool) (rest : List Datum) :
    ∃ u', seq m f labels ⟨0, u⟩ (data code ++ rest) = seq m f labels ⟨0, u'⟩ rest := by
  match s, ht with
  | .assign info target value, ht =>
    obtain ⟨word, hvalue, rfl, rfl⟩ := stmt_assign_eq_ok.mp h
    refine ⟨u, ?_⟩
    rw [data_lines, List.map_append, List.append_assoc, seq_expr hd value ht.1 hvalue]
    exact seq_set hd (Scope.lookup?_of_assignable? ht.2) 0 u rest
  | .expr info value, ht =>
    obtain ⟨word, hvalue, rfl, rfl⟩ := stmt_expr_eq_ok.mp h
    refine ⟨u, ?_⟩
    rw [data_lines, List.map_append, List.append_assoc, seq_expr hd value ht hvalue]
    exact Validation.seq_localSet hd.scratch
  | .ret info none, ht =>
    cases h
    refine ⟨true, ?_⟩
    exact (Validation.seq_const 0).trans (Validation.seq_ret (hd.results ht))
  | .ret info (some value), ht =>
    obtain ⟨word, hvalue, rfl, rfl⟩ := stmt_ret_eq_ok.mp h
    refine ⟨true, ?_⟩
    rw [data_lines, List.map_append, List.append_assoc, seq_expr hd value ht.2.1 hvalue]
    exact Validation.seq_ret (hd.results ht.1)
  | .while_ info test body, ht =>
    obtain ⟨test', htest, body', last, hbody, rfl, rfl⟩ := stmt_while_eq_ok.mp h
    have hloop := nested_round hd ht.1 htest label labels
      (seq_stmts hd body ht.2.2 hbody _ false)
    have hblock := Validation.nested_eq_ok
      ((Validation.seq_loop hloop).trans (Validation.seq_nil (m := m) (f := f) _))
    exact ⟨u, Validation.seq_block hblock⟩
  | .cond info none body orElse, ht => exact seq_stmts hd body ht.2.1 h labels u rest
  | .cond info (some test) body orElse, ht =>
    obtain ⟨test', htest, body', middle, hbody, orElse', last, horElse, rfl, rfl⟩ :=
      stmt_cond_eq_ok.mp h
    refine ⟨u, ?_⟩
    have hthen := nested_of_seq (seq_stmts hd body ht.2.1 hbody ([] :: labels) false [])
    have hcond : ∀ whole, Validation.conditional m f labels whole Validation.armHeads
        (data (nested ["then"] body' :: orElse')) = .ok () := fun whole =>
      (Validation.conditional_cons (by decide) hthen).trans
        (conditional_arm hd orElse ht.2.2 horElse labels whole)
    rw [data_append, data_lines, List.append_assoc, seq_expr hd test (ht.1 test rfl).1 htest]
    exact Validation.seq_cond hcond
  | .pass info, _ =>
    cases h
    exact ⟨u, rfl⟩

/-- The code of statements leaves nothing. -/
theorem seq_stmts (hd : Declares scope locals m f) (body : List (Stmt Ty))
    (ht : StmtsTyped scope body) {label next : Nat} {code : List Layout}
    (h : stmts locals label body = .ok (code, next)) (labels : List Text) (u : Bool)
    (rest : List Datum) :
    ∃ u', seq m f labels ⟨0, u⟩ (data code ++ rest) = seq m f labels ⟨0, u'⟩ rest := by
  match body, ht with
  | [], _ =>
    cases h
    exact ⟨u, rfl⟩
  | s :: others, ht =>
    obtain ⟨first, middle, hfirst, more, last, hmore, rfl, rfl⟩ := stmts_cons_eq_ok.mp h
    obtain ⟨v, hv⟩ := seq_stmt hd s ht.1 hfirst labels u (data more ++ rest)
    obtain ⟨w, hw⟩ := seq_stmts hd others ht.2 hmore labels v rest
    refine ⟨w, ?_⟩
    rw [data_append, List.append_assoc, hv, hw]

/-- The arm of a conditional leaves nothing. -/
theorem conditional_arm (hd : Declares scope locals m f) (orElse : Option (Stmt Ty))
    (ht : ArmTyped scope orElse) {label next : Nat} {code : List Layout}
    (h : arm locals label orElse = .ok (code, next)) (labels : List Text) (whole : Datum) :
    Validation.conditional m f labels whole ["else"] (data code) = .ok () := by
  match orElse, ht with
  | none, _ =>
    cases h
    rw [data, Validation.conditional]
  | some s, ht =>
    obtain ⟨body, last, hbody, rfl, rfl⟩ := arm_some_eq_ok.mp h
    have helse := nested_of_seq (seq_stmt hd s ht hbody ([] :: labels) false [])
    exact (Validation.conditional_cons (by decide) helse).trans
      (Validation.conditional_nil whole [])

end

end WatCompiler.Code
