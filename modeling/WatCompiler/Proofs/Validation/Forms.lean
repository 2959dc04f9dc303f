import WatCompiler.Module.Validation
import WatCompiler.Proofs.Basic
import WatCompiler.Proofs.Wat.Instr

/-!
# The height after a written instruction

One equation for each instruction that code is written with: what validation makes of the height,
and that it goes on with the rest. The operands that an instruction takes have to be there, also
where the code is never reached.
-/

namespace WatCompiler.Validation

section Step

variable (m : Module) (f : Func) (labels : List Text) (h : Height) (d : Datum)

/-- The height after the datum `d` if it means a given instruction. -/
def heightAfter : Instr → Except ValidationFault Height
  | .const _ => .ok (h.push 1)
  | .badConst fault => .error (.badConst fault)
  | .localGet name =>
    if (declared f).contains name then .ok (h.push 1) else .error (.undeclaredLocal name)
  | .localSet name =>
    if (declared f).contains name then h.pop 1 d else .error (.undeclaredLocal name)
  | .globalGet name =>
    if m.globals.has name then .ok (h.push 1) else .error (.undeclaredGlobal name)
  | .globalSet name => if m.globals.has name then h.pop 1 d else .error (.undeclaredGlobal name)
  | .call name =>
    match m.signature? name with
    | none => .error (.unknownFunction name)
    | some (params, results) => do
      let h ← h.pop params d
      pure (h.push results)
  | .ret => do
    let h ← h.pop f.results d
    pure { h with unreachable := true }
  | .br label =>
    if hasLabel labels label then .ok { h with unreachable := true }
    else .error (.unknownLabel label)
  | .brIf label => if hasLabel labels label then h.pop 1 d else .error (.unknownLabel label)
  | .block label body =>
    match label with
    | some (.symbol name) => do
      nested m f labels name body
      pure h
    | _ => .error (.missingLabel "block")
  | .loop label body =>
    match label with
    | some (.symbol name) => do
      nested m f labels name body
      pure h
    | _ => .error (.missingLabel "loop")
  | .cond arms => do
    let h ← h.pop 1 d
    conditional m f labels d armHeads arms
    pure h
  | .arith _ => do
    let h ← h.pop 2 d
    pure (h.push 1)
  | .unknown _ => .error (.unsupported d)

/-- An instruction is checked by what its form says. -/
theorem instr_eq_heightAfter : instr m f labels h d = heightAfter m f labels h d d.instr := by
  rw [instr]
  split
  case h_11 label body hi =>
    refine Eq.trans ?_ (congrArg (heightAfter m f labels h d) hi).symm
    rcases label with - | ⟨⟨⟩⟩ <;> rfl
  case h_12 label body hi =>
    refine Eq.trans ?_ (congrArg (heightAfter m f labels h d) hi).symm
    rcases label with - | ⟨⟨⟩⟩ <;> rfl
  all_goals
    rename_i hi
    rw [hi]
    rfl

end Step

variable {m : Module} {f : Func} {labels : List Text} {n : Nat} {u : Bool} {rest : List Datum}

/-- One instruction, and then the rest at the height that it leaves. -/
theorem seq_form {h h' : Height} {i : Instr} (hi : i.IsCode)
    (hafter : heightAfter m f labels h i.form i = .ok h') :
    seq m f labels h (i.form :: rest) = seq m f labels h' rest := by
  rw [seq, instr_eq_heightAfter, Instr.instr_form hi, hafter]
  rfl

/-- Operands that are there can be taken. -/
theorem pop_of_le {k : Nat} (hk : k ≤ n) (d : Datum) : Height.pop ⟨n, u⟩ k d = .ok ⟨n - k, u⟩ :=
  if_pos hk

theorem seq_nil (h : Height) : seq m f labels h [] = .ok h := by
  rw [seq]

theorem seq_const (v : Int32) : seq m f labels ⟨n, u⟩ ((Instr.const v).form :: rest) =
    seq m f labels ⟨n + 1, u⟩ rest :=
  seq_form trivial rfl

theorem seq_localGet {name : Text} (hname : name ∈ declared f) :
    seq m f labels ⟨n, u⟩ ((Instr.localGet name).form :: rest) =
      seq m f labels ⟨n + 1, u⟩ rest :=
  seq_form trivial (if_pos (List.contains_iff_mem.mpr hname))

theorem seq_localSet {name : Text} (hname : name ∈ declared f) :
    seq m f labels ⟨n + 1, u⟩ ((Instr.localSet name).form :: rest) =
      seq m f labels ⟨n, u⟩ rest :=
  seq_form trivial ((if_pos (List.contains_iff_mem.mpr hname)).trans
    (pop_of_le (Nat.le_add_left 1 n) _))

theorem seq_globalGet {name : Text} (hname : m.globals.has name = true) :
    seq m f labels ⟨n, u⟩ ((Instr.globalGet name).form :: rest) =
      seq m f labels ⟨n + 1, u⟩ rest :=
  seq_form trivial (if_pos hname)

theorem seq_globalSet {name : Text} (hname : m.globals.has name = true) :
    seq m f labels ⟨n + 1, u⟩ ((Instr.globalSet name).form :: rest) =
      seq m f labels ⟨n, u⟩ rest :=
  seq_form trivial ((if_pos hname).trans (pop_of_le (Nat.le_add_left 1 n) _))

/-- A call takes its arguments and leaves its results. -/
theorem seq_call {name : Text} {params results : Nat}
    (hname : m.signature? name = some (params, results)) :
    seq m f labels ⟨n + params, u⟩ ((Instr.call name).form :: rest) =
      seq m f labels ⟨n + results, u⟩ rest := by
  refine seq_form trivial ?_
  simp only [heightAfter, hname, pop_of_le (Nat.le_add_left params n), Nat.add_sub_cancel]
  rfl

/-- A return takes the results of the function; what follows is not reached. -/
theorem seq_ret {k : Nat} (hk : f.results = k) :
    seq m f labels ⟨n + k, u⟩ (Instr.ret.form :: rest) = seq m f labels ⟨n, true⟩ rest := by
  subst hk
  refine seq_form trivial ?_
  rw [heightAfter, pop_of_le (Nat.le_add_left f.results n), Nat.add_sub_cancel]
  rfl

theorem hasLabel_of_mem {label : Text} (hne : label ≠ []) (hmem : label ∈ labels) :
    hasLabel labels label = true := by
  simp [hasLabel, hne, hmem]

/-- A branch to a label around it; what follows is not reached. -/
theorem seq_br {label : Text} (hlabel : hasLabel labels label = true) :
    seq m f labels ⟨n, u⟩ ((Instr.br label).form :: rest) = seq m f labels ⟨n, true⟩ rest :=
  seq_form trivial (if_pos hlabel)

theorem seq_brIf {label : Text} (hlabel : hasLabel labels label = true) :
    seq m f labels ⟨n + 1, u⟩ ((Instr.brIf label).form :: rest) = seq m f labels ⟨n, u⟩ rest :=
  seq_form trivial ((if_pos hlabel).trans (pop_of_le (Nat.le_add_left 1 n) _))

theorem seq_arith (op : ArithOp) :
    seq m f labels ⟨n + 2, u⟩ ((Instr.arith op).form :: rest) =
      seq m f labels ⟨n + 1, u⟩ rest := by
  refine seq_form trivial ?_
  rw [heightAfter, pop_of_le (Nat.le_add_left 2 n)]
  rfl

/-! ## Structured instructions -/

/-- A body that leaves nothing can be nested. -/
theorem nested_eq_ok {label : Text} {body : List Datum}
    (h : seq m f (label :: labels) .zero body = .ok ⟨0, u⟩) :
    nested m f labels label body = .ok () := by
  have hend : Height.endsWith ⟨0, u⟩ 0 = true := by simp [Height.endsWith]
  rw [nested, h]
  exact if_pos hend

/-- A block leaves the stack as high as it was. -/
theorem seq_block {label : Text} {body : List Datum}
    (h : nested m f labels label body = .ok ()) :
    seq m f labels ⟨n, u⟩ ((Instr.block (some (.symbol label)) body).form :: rest) =
      seq m f labels ⟨n, u⟩ rest := by
  refine seq_form trivial ?_
  rw [heightAfter, h]
  rfl

theorem seq_loop {label : Text} {body : List Datum}
    (h : nested m f labels label body = .ok ()) :
    seq m f labels ⟨n, u⟩ ((Instr.loop (some (.symbol label)) body).form :: rest) =
      seq m f labels ⟨n, u⟩ rest := by
  refine seq_form trivial ?_
  rw [heightAfter, h]
  rfl

/-- A conditional takes its condition, and its arms leave the stack as high as it was. -/
theorem seq_cond {arms : List Datum}
    (h : ∀ whole, conditional m f labels whole armHeads arms = .ok ()) :
    seq m f labels ⟨n + 1, u⟩ ((Instr.cond arms).form :: rest) = seq m f labels ⟨n, u⟩ rest := by
  refine seq_form trivial ?_
  rw [heightAfter, pop_of_le (Nat.le_add_left 1 n)]
  show (conditional m f labels _ armHeads arms >>= fun _ => _) = _
  rw [h]
  rfl

theorem conditional_nil (whole : Datum) (heads : List Text) :
    conditional m f labels whole heads [] = .ok () := by
  rw [conditional]

/-- The arms of a conditional come in the order of their heads. -/
theorem conditional_cons {whole : Datum} {head : Text} {heads : List Text} {body arms : List Datum}
    (hhead : head ≠ []) (h : nested m f labels [] body = .ok ()) :
    conditional m f labels whole (head :: heads) (.form (.symbol head :: body) :: arms) =
      conditional m f labels whole heads arms := by
  rw [conditional, dif_pos ⟨rfl, hhead⟩]
  show (nested m f labels [] body >>= fun _ => _) = _
  rw [h]
  rfl

end WatCompiler.Validation
