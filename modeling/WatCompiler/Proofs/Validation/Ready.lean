import WatCompiler.Machine
import WatCompiler.Proofs.Machine.OperandStack
import WatCompiler.Proofs.Validation.Runs

/-!
# What is left to do fits the operands

Validation counts operands from the start of each body, while a running function has one stack.
`Ready` ties the two: it says of what is left to do that every sequence of instructions is valid
with the operands above its own floor, and that every block and loop started at the floor of its
body. A branch then leads to where this holds again (`branchTo_ready`).

The predicate looks at a part of what is left to do. What comes after the part, `after`, is left
open, and so are the `base` operands at the bottom of the stack, which the part never touches; it
ends with `exit` operands. A whole function is the part with nothing after it and no operands below
it; the part that belongs to a block is how one sees that a block leaves the stack as it was.
-/

namespace WatCompiler

/-- The labels of the blocks and loops that are left to end. -/
def labelsOf (todo : List Control) : List Text :=
  todo.filterMap fun
    | .seq _ => none
    | .block name _ | .loop name _ _ => some name

@[simp] theorem labelsOf_nil : labelsOf [] = [] := rfl

@[simp] theorem labelsOf_seq (code : List Datum) (todo : List Control) :
    labelsOf (.seq code :: todo) = labelsOf todo := rfl

@[simp] theorem labelsOf_block (name : Text) (height : Nat) (todo : List Control) :
    labelsOf (.block name height :: todo) = name :: labelsOf todo := rfl

@[simp] theorem labelsOf_loop (name : Text) (height : Nat) (body : List Datum)
    (todo : List Control) : labelsOf (.loop name height body :: todo) = name :: labelsOf todo := rfl

@[simp] theorem labelsOf_append (k after : List Control) :
    labelsOf (k ++ after) = labelsOf k ++ labelsOf after := List.filterMap_append

/-- The code in front of the end of a loop is an end of the loop's body. -/
def EndsLoop (code : List Datum) : List Control → Prop
  | .loop _ _ body :: _ => code <:+ body
  | _ => True

namespace Validation

variable {m : Module} {f : Func} {after : List Control} {base exit : Nat}

/-- The part `todo` of what is left to do fits a stack of a given height. -/
def Ready (m : Module) (f : Func) (after : List Control) (base exit : Nat) :
    List Control → Nat → Prop
  | [], height => height = exit
  | .seq code :: todo, height =>
    EndsLoop code (todo ++ after) ∧
    ∃ floor count final, base ≤ floor ∧ height = floor + count ∧
      Runs m f (labelsOf (todo ++ after)) count code final ∧
      (todo = [] ∨ final = 0) ∧ Ready m f after base exit todo (floor + final)
  | .block name start :: todo, height =>
    name ≠ [] ∧ base ≤ start ∧ height = start ∧ Ready m f after base exit todo start
  | .loop name start body :: todo, height =>
    name ≠ [] ∧ base ≤ start ∧ height = start ∧
      Runs m f (name :: labelsOf (todo ++ after)) 0 body 0 ∧ Ready m f after base exit todo start

theorem Ready.labels_ne_nil {todo : List Control} {height : Nat}
    (h : Ready m f after base exit todo height) : [] ∉ labelsOf todo := by
  induction todo generalizing height with
  | nil => simp
  | cons c todo ih =>
    cases c with
    | seq code =>
      obtain ⟨-, _, _, _, -, -, -, -, hrest⟩ := h
      exact ih hrest
    | block name start =>
      obtain ⟨hname, -, -, hrest⟩ := h
      rw [labelsOf_block, List.mem_cons, not_or]
      exact ⟨fun e => hname e.symm, ih hrest⟩
    | loop name start body =>
      obtain ⟨hname, -, -, -, hrest⟩ := h
      rw [labelsOf_loop, List.mem_cons, not_or]
      exact ⟨fun e => hname e.symm, ih hrest⟩

/-- A loop can start again. -/
theorem ready_loop {name : Text} {start : Nat} {body : List Datum} {todo : List Control}
    (hname : name ≠ []) (hbase : base ≤ start)
    (hbody : Runs m f (name :: labelsOf (todo ++ after)) 0 body 0)
    (hrest : Ready m f after base exit todo start) :
    Ready m f after base exit (.seq body :: .loop name start body :: todo) start :=
  ⟨List.suffix_refl body, start, 0, 0, hbase, rfl, hbody, Or.inr rfl,
    hname, hbase, rfl, hbody, hrest⟩

/-- A block can start. -/
theorem ready_block {name : Text} {start : Nat} {body : List Datum} {todo : List Control}
    (hname : name ≠ []) (hbase : base ≤ start)
    (hbody : Runs m f (name :: labelsOf (todo ++ after)) 0 body 0)
    (hrest : Ready m f after base exit todo start) :
    Ready m f after base exit (.seq body :: .block name start :: todo) start :=
  ⟨trivial, start, 0, 0, hbase, rfl, hbody, Or.inr rfl, hname, hbase, rfl, hrest⟩

/-! ## Branches and returns -/

/-- A branch to a label of this part leads to another part that fits the stack, cut to the height at
which the block or loop with the label started. -/
theorem branchTo_ready {label : Text} (stack : OperandStack) {todo : List Control} {height : Nat}
    (h : Ready m f after base exit todo height) (hl : label ∈ labelsOf todo)
    (hle : height ≤ stack.height) :
    ∃ next start, branchTo label stack (todo ++ after) = (next ++ after, stack.resize start) ∧
      base ≤ start ∧ start ≤ stack.height ∧ Ready m f after base exit next start := by
  induction todo generalizing height with
  | nil => cases hl
  | cons c todo ih =>
    cases c with
    | seq code =>
      obtain ⟨-, floor, count, final, -, rfl, -, hfinal, hrest⟩ := h
      rw [labelsOf_seq] at hl
      have h0 : final = 0 := by
        rcases hfinal with rfl | h0
        · cases hl
        · exact h0
      exact ih hrest hl (by omega)
    | block name start =>
      obtain ⟨hname, hbase, rfl, hrest⟩ := h
      rw [List.cons_append, branchTo]
      by_cases e : name = label
      · rw [if_pos e]
        exact ⟨todo, height, rfl, hbase, hle, hrest⟩
      · rw [if_neg e]
        rcases List.mem_cons.mp hl with e' | hl
        · exact absurd e'.symm e
        · exact ih hrest hl hle
    | loop name start body =>
      obtain ⟨hname, hbase, rfl, hbody, hrest⟩ := h
      rw [List.cons_append, branchTo]
      by_cases e : name = label
      · rw [if_pos e]
        exact ⟨.seq body :: .loop name height body :: todo, height, rfl, hbase, hle,
          ready_loop hname hbase hbody hrest⟩
      · rw [if_neg e]
        rcases List.mem_cons.mp hl with e' | hl
        · exact absurd e'.symm e
        · exact ih hrest hl hle

/-- A branch to another label passes over this part. -/
theorem branchTo_append {label : Text} {stack : OperandStack} {todo : List Control}
    (hl : label ∉ labelsOf todo) :
    branchTo label stack (todo ++ after) = branchTo label stack after := by
  induction todo with
  | nil => rfl
  | cons c todo ih =>
    cases c with
    | seq code => exact ih hl
    | block name start =>
      rw [labelsOf_block, List.mem_cons, not_or] at hl
      rw [List.cons_append, branchTo, if_neg (fun e => hl.1 e.symm), ih hl.2]
    | loop name start body =>
      rw [labelsOf_loop, List.mem_cons, not_or] at hl
      rw [List.cons_append, branchTo, if_neg (fun e => hl.1 e.symm), ih hl.2]

/-- If every block and loop has a name, a return leaves nothing to do and keeps the stack. -/
theorem returnFrom_eq {stack : OperandStack} {todo : List Control} (h : [] ∉ labelsOf todo) :
    returnFrom stack todo = ([], stack) := by
  induction todo with
  | nil => rfl
  | cons c todo ih =>
    cases c with
    | seq code => exact ih h
    | block name start =>
      rw [labelsOf_block, List.mem_cons, not_or] at h
      rw [returnFrom, if_neg (fun e => h.1 e.symm), ih h.2]
    | loop name start body =>
      rw [labelsOf_loop, List.mem_cons, not_or] at h
      rw [returnFrom, if_neg (fun e => h.1 e.symm), ih h.2]

/-- A branch leads behind a block, or to the start of a loop. -/
theorem branchTo_cases {label : Text} (stack : OperandStack) {todo : List Control}
    (hl : label ∈ labelsOf todo) :
    (branchTo label stack todo).1 <:+ todo ∨
      ∃ name start body rest, .loop name start body :: rest <:+ todo ∧
        (branchTo label stack todo).1 = .seq body :: .loop name start body :: rest := by
  induction todo with
  | nil => cases hl
  | cons c todo ih =>
    -- a branch that goes further out
    have outer : label ∈ labelsOf todo → (branchTo label stack todo).1 <:+ c :: todo ∨
        ∃ name start body rest, .loop name start body :: rest <:+ c :: todo ∧
          (branchTo label stack todo).1 = .seq body :: .loop name start body :: rest := by
      intro hl
      rcases ih hl with hs | ⟨name, start, body, rest, hs, e⟩
      · exact Or.inl (hs.trans (List.suffix_cons c todo))
      · exact Or.inr ⟨name, start, body, rest, hs.trans (List.suffix_cons c todo), e⟩
    cases c with
    | seq code => exact outer hl
    | block name start =>
      rw [branchTo]
      by_cases e : name = label
      · rw [if_pos e]
        exact Or.inl (List.suffix_cons _ todo)
      · rw [if_neg e]
        exact outer ((List.mem_cons.mp hl).resolve_left fun e' => e e'.symm)
    | loop name start body =>
      rw [branchTo]
      by_cases e : name = label
      · rw [if_pos e]
        exact Or.inr ⟨name, start, body, todo, List.suffix_refl _, rfl⟩
      · rw [if_neg e]
        exact outer ((List.mem_cons.mp hl).resolve_left fun e' => e e'.symm)

/-- A branch out of an instruction never leads to what follows the instruction. The only way would
be a loop that starts again there, but what follows is less than the body of the loop. -/
theorem branchTo_ne {label : Text} (stack : OperandStack) {d : Datum} {code : List Datum}
    {todo : List Control} (hl : label ∈ labelsOf todo) (hend : EndsLoop (d :: code) todo)
    (k : List Control) : (branchTo label stack todo).1 ≠ k ++ Control.seq code :: todo := by
  intro e
  rcases branchTo_cases stack hl with hs | ⟨name, start, body, rest, hs, e'⟩
  · have hlen := hs.length_le
    rw [e, List.length_append, List.length_cons] at hlen
    omega
  · have hlen := hs.length_le
    have hlen' := congrArg List.length (e'.symm.trans e)
    simp only [List.length_cons, List.length_append] at hlen hlen'
    have htodo : .loop name start body :: rest = todo :=
      hs.eq_of_length (by simp only [List.length_cons]; omega)
    have hk : k = [] := List.eq_nil_of_length_eq_zero (by omega)
    rw [hk, List.nil_append] at e
    have hcode : body = code := by
      have hhead := e'.symm.trans e
      injection hhead with hhead
      injection hhead
    rw [← htodo] at hend
    have hlong : (d :: code).length ≤ body.length := List.IsSuffix.length_le hend
    rw [hcode, List.length_cons] at hlong
    omega

end Validation

end WatCompiler
