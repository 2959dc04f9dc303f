import WatCompiler.Module

/-!
# Validation

A function is valid if every name in it is declared and every instruction finds its operands.
Blocks, loops and the arms of a conditional start with an empty stack of their own and leave
nothing on it. After an instruction that never continues, operands that are missing do not matter.
-/

namespace WatCompiler

/-- Why a function is not valid. -/
inductive ValidationFault
  | duplicateLocal (name : Text)
  | finalHeight (expected found : Nat)
  | underflow (instr : Datum)
  | badConst (fault : ConstFault)
  | undeclaredLocal (name : Text)
  | undeclaredGlobal (name : Text)
  | unknownFunction (name : Text)
  | unknownLabel (label : Text)
  | missingLabel (instr : Text)
  | malformedIf (instr : Datum)
  | unsupported (instr : Datum)
  | leftover (label : Text) (count : Nat)
deriving Repr

/-- The wording of a fault. -/
def ValidationFault.message : ValidationFault → Text
  | duplicateLocal name => "duplicate local " ++ name
  | finalHeight expected found =>
    "expected " ++ Text.ofNat expected ++ " values on the stack at end of function, got " ++
      Text.ofNat found
  | underflow instr => "stack underflow at " ++ instr.render
  | badConst fault => fault.message
  | undeclaredLocal name => "undeclared local " ++ name
  | undeclaredGlobal name => "undeclared global " ++ name
  | unknownFunction name => "call to unknown function " ++ name
  | unknownLabel label => "branch to unknown label " ++ label
  | missingLabel instr => instr ++ " needs a label"
  | malformedIf instr => "malformed if " ++ instr.render
  | unsupported instr => "unsupported instruction " ++ instr.render
  | leftover label count =>
    "block " ++ label ++ " leaves " ++ Text.ofNat count ++ " values on the stack"

/-- How many operands there are, and whether this point of the code is never reached. -/
structure Height where
  count : Nat
  unreachable : Bool
deriving DecidableEq, Repr

namespace Height

/-- The height at the start of a body. -/
def zero : Height := ⟨0, false⟩

/-- Puts operands on the stack. -/
def push (h : Height) (n : Nat) : Height := { h with count := h.count + n }

/-- Takes operands from the stack for an instruction. -/
def pop (h : Height) (n : Nat) (instr : Datum) : Except ValidationFault Height :=
  if n ≤ h.count then .ok { h with count := h.count - n }
  else if h.unreachable then .ok { h with count := 0 }
  else .error (.underflow instr)

/-- Whether this is the height that a body has to end with. -/
def endsWith (h : Height) (n : Nat) : Bool := h.unreachable || h.count = n

end Height

/-! ## Bodies are smaller than their instructions -/

theorem Datum.sizeOf_items_lt {d : Datum} (h : d.head ≠ []) : sizeOf d.items < sizeOf d := by
  cases d with
  | list items tags =>
    simp only [Datum.items, Datum.list.sizeOf_spec]
    omega
  | _ => simp [Datum.head] at h

/-- A form is larger than what follows its head. -/
theorem Datum.sizeOf_items_drop_lt {d : Datum} (h : d.head ≠ []) (n : Nat) :
    sizeOf (d.items.drop n) < sizeOf d := by
  have drop_le : ∀ (n : Nat) (ds : List Datum), sizeOf (ds.drop n) ≤ sizeOf ds := by
    intro n
    induction n with
    | zero => intro ds; simp
    | succ n ih =>
      intro ds
      cases ds with
      | nil => simp
      | cons d rest =>
        have := ih rest
        simp only [List.drop_succ_cons, List.cons.sizeOf_spec]
        omega
  exact Nat.lt_of_le_of_lt (drop_le n d.items) (d.sizeOf_items_lt h)

theorem Datum.sizeOf_block_body_lt {d : Datum} {label : Option Datum} {body : List Datum}
    (h : d.instr = .block label body) : sizeOf body < sizeOf d := by
  have head := d.head_ne_nil (by simp [h])
  obtain ⟨-, rfl⟩ := Datum.body_of_instr_block h
  exact d.sizeOf_items_drop_lt head 2

theorem Datum.sizeOf_loop_body_lt {d : Datum} {label : Option Datum} {body : List Datum}
    (h : d.instr = .loop label body) : sizeOf body < sizeOf d := by
  have head := d.head_ne_nil (by simp [h])
  obtain ⟨-, rfl⟩ := Datum.body_of_instr_loop h
  exact d.sizeOf_items_drop_lt head 2

theorem Datum.sizeOf_cond_arms_lt {d : Datum} {arms : List Datum} (h : d.instr = .cond arms) :
    sizeOf arms < sizeOf d := by
  have head := d.head_ne_nil (by simp [h])
  obtain rfl := Datum.arms_of_instr_cond h
  exact d.sizeOf_items_drop_lt head 1

namespace Validation

/-- The heads that the arms of a conditional have to have, in order. -/
def armHeads : List Text := ["then", "else"]

/-- A branch needs a label around it; arms of conditionals have none. -/
def hasLabel (labels : List Text) (label : Text) : Bool := label ≠ [] && labels.contains label

variable (m : Module) (f : Func)

/-- The locals of a function, its parameters included. -/
def declared : List Text := f.params ++ f.locals

mutual

/-- The height after an instruction. -/
def instr (labels : List Text) (h : Height) (d : Datum) : Except ValidationFault Height :=
  match _hd : d.instr with
  | .const _ => .ok (h.push 1)
  | .badConst fault => .error (.badConst fault)
  | .localGet name =>
    if (declared f).contains name then .ok (h.push 1) else .error (.undeclaredLocal name)
  | .localSet name =>
    if (declared f).contains name then h.pop 1 d else .error (.undeclaredLocal name)
  | .globalGet name =>
    if m.globals.has name then .ok (h.push 1) else .error (.undeclaredGlobal name)
  | .globalSet name => if m.globals.has name then h.pop 1 d else .error (.undeclaredGlobal name)
  | .call name =>
    match m.signature? name with
    | none => .error (.unknownFunction name)
    | some (params, results) => do
      let h ← h.pop params d
      pure (h.push results)
  | .ret => do
    let h ← h.pop f.results d
    pure { h with unreachable := true }
  | .br label =>
    if hasLabel labels label then .ok { h with unreachable := true }
    else .error (.unknownLabel label)
  | .brIf label => if hasLabel labels label then h.pop 1 d else .error (.unknownLabel label)
  | .block label body =>
    match label with
    | some (.symbol name) => do
      nested labels name body
      pure h
    | _ => .error (.missingLabel "block")
  | .loop label body =>
    match label with
    | some (.symbol name) => do
      nested labels name body
      pure h
    | _ => .error (.missingLabel "loop")
  | .cond arms => do
    let h ← h.pop 1 d
    conditional labels d armHeads arms
    pure h
  | .arith _ => do
    let h ← h.pop 2 d
    pure (h.push 1)
  | .unknown _ => .error (.unsupported d)
termination_by 2 * sizeOf d
decreasing_by
  · have := Datum.sizeOf_block_body_lt _hd
    omega
  · have := Datum.sizeOf_loop_body_lt _hd
    omega
  · have := Datum.sizeOf_cond_arms_lt _hd
    omega

/-- The height after a sequence of instructions. -/
def seq (labels : List Text) (h : Height) (body : List Datum) : Except ValidationFault Height :=
  match body with
  | [] => .ok h
  | d :: rest => do
    let h ← instr labels h d
    seq labels h rest
termination_by 2 * sizeOf body
decreasing_by
  · simp only [List.cons.sizeOf_spec]
    omega
  · simp only [List.cons.sizeOf_spec]
    omega

/-- The body of a block, a loop or an arm. -/
def nested (labels : List Text) (label : Text) (body : List Datum) :
    Except ValidationFault Unit := do
  let h ← seq (label :: labels) .zero body
  if h.endsWith 0 then pure () else .error (.leftover label h.count)
termination_by 2 * sizeOf body + 1
decreasing_by omega

/-- The arms of the conditional `whole`. -/
def conditional (labels : List Text) (whole : Datum) (heads : List Text) (arms : List Datum) :
    Except ValidationFault Unit :=
  match arms, heads with
  | [], _ => .ok ()
  | _ :: _, [] => .error (.malformedIf whole)
  | arm :: rest, expected :: heads =>
    if _hd : arm.head = expected ∧ expected ≠ [] then do
      nested labels [] (arm.items.drop 1)
      conditional labels whole heads rest
    else .error (.malformedIf whole)
termination_by 2 * sizeOf arms
decreasing_by
  · have := arm.sizeOf_items_drop_lt (_hd.1 ▸ _hd.2) 1
    simp only [List.cons.sizeOf_spec]
    omega
  · simp only [List.cons.sizeOf_spec]
    omega

end

/-- The first name that stands in a list twice, by where it stands for the second time. -/
def firstDuplicate? (seen : List Text) : List Text → Option Text
  | [] => none
  | name :: rest => if seen.contains name then some name else firstDuplicate? (name :: seen) rest

/-- Checks a function. -/
def function : Except ValidationFault Unit :=
  match firstDuplicate? [] (declared f) with
  | some name => .error (.duplicateLocal name)
  | none => do
    let h ← seq m f [] .zero f.body
    if h.endsWith f.results then pure () else .error (.finalHeight f.results h.count)

end Validation

end WatCompiler
