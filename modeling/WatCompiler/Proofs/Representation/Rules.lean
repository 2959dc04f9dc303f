import WatCompiler.Proofs.Evaluation
import WatCompiler.Proofs.Typing.WellTyped
import WatCompiler.Proofs.Validation.Ready
import WatCompiler.Wat.OfProgram

/-!
# Words that stand for values

The machine knows words only. `Ty.Represents` says which of them stand for a value of a type: zero
and one for truth values, and zero for `None`. Whether code keeps to this is a question of typing,
and this file has the rules. A type of an operand is whatever is known of the word, as a predicate:
that is how one rule for arithmetic serves for sums, for comparisons, for `is`, which is known to
give one, and for `xor`, whose left operand has to be a truth value.

`Plain` has the rules for single instructions that only work on values, `Straight` those for code
without branches, such as that of an expression, and `Typed` those for all code. `TodoTyped` extends
them to what a function has left to do. Statements start and end without operands, so inside a
function every block and every loop stands at the bottom of the stack.
-/

namespace WatCompiler

/-- The words that stand for values of a type. -/
def Ty.Represents (type : Ty) (v : Int32) : Prop :=
  match type with
  | .bool => v = 0 ∨ v = 1
  | .none => v = 0
  | .int | .any | .other _ => True

namespace Ty

/-- Zero stands for a value of every type. -/
theorem represents_zero (type : Ty) : type.Represents 0 := by
  cases type with
  | bool => exact .inl rfl
  | none => exact rfl
  | _ => trivial

theorem represents_toInt32 (b : Bool) : Ty.bool.Represents b.toInt32 := by
  cases b with
  | false => exact .inl rfl
  | true => exact .inr rfl

/-- What a literal is written as stands for a value of its type. -/
theorem represents_word {value : Literal} {type : Ty} (h : value.type = type) :
    type.Represents value.word := by
  subst h
  cases value with
  | none => exact rfl
  | false => exact .inl rfl
  | true => exact .inr rfl
  | _ => trivial

end Ty

/-- What a binary operator gives stands for a value of its result type. -/
theorem BinaryOp.apply_represents {op : BinaryOp} {operands type : Ty}
    (h : op.resultType? operands = some type) {lhs rhs v : Int32} (hv : op.apply lhs rhs = .ok v) :
    type.Represents v := by
  have hbool : ∀ b : Bool, Except.ok (ε := Trap) b.toInt32 = .ok v → Ty.bool.Represents v := by
    intro b hb
    cases hb
    exact Ty.represents_toInt32 b
  cases op with
  | add | subtract | multiply | divide | remainder =>
    cases operands <;> cases h
    trivial
  -- Comparisons give truth values, whatever is compared.
  | equal | notEqual | is | lessEqual | greaterEqual | less | greater =>
    cases operands <;> cases h <;> exact hbool _ hv
  | other =>
    cases hv
    exact type.represents_zero

/-- Only `None` can be compared with `is`, and it is what it is. -/
theorem BinaryOp.is_apply {operands type : Ty} (h : BinaryOp.is.resultType? operands = some type)
    {lhs rhs v : Int32} (hlhs : operands.Represents lhs) (hrhs : operands.Represents rhs)
    (hv : BinaryOp.is.apply lhs rhs = .ok v) : v = 1 := by
  cases operands with
  | none =>
    cases hlhs
    cases hrhs
    cases hv
    rfl
  | _ => cases h

/-- What is known of the value of an expression: it is of the type that the expression was given,
and an identity holds. -/
def Expr.Yields (e : Expr Ty) (v : Int32) : Prop :=
  e.info.ann.Represents v ∧ ∀ info lhs rhs, e = .binary info .is lhs rhs → v = 1

/-- Any expression but `is` yields a value of its type. -/
theorem Expr.yields_eq {e : Expr Ty} (h : ∀ info lhs rhs, e ≠ .binary info .is lhs rhs) :
    e.Yields = e.info.ann.Represents := by
  funext v
  refine propext ⟨And.left, fun hv => ⟨hv, ?_⟩⟩
  intro info lhs rhs he
  exact absurd he (h info lhs rhs)

namespace Representation

open Code

/-- What is known of operands, the topmost first. -/
abbrev Known := List (Int32 → Prop)

/-- Operands of which it is true. -/
def Meets (known : Known) (values : List Int32) : Prop :=
  List.Forall₂ (fun P v => P v) known values

/-! ## Instructions that only work on values -/

/-- An instruction that takes operands of which `known` is true to operands of which `known'` is
true, if variables have values of their types. -/
inductive Plain (p : Program Ty) (scope : Scope) : Known → Datum → Known → Prop
  | const {known : Known} {d : Datum} {v : Int32} {P : Int32 → Prop} (instr : d.instr = .const v)
      (value : P v) : Plain p scope known d (P :: known)
  | localGet {known : Known} {d : Datum} {name : Text} {type : Ty}
      (instr : d.instr = .localGet (identifier name)) (var : scope.local? name = some type) :
      Plain p scope known d (type.Represents :: known)
  | globalGet {known : Known} {d : Datum} {name : Text} {type : Ty}
      (instr : d.instr = .globalGet (identifier name))
      (var : p.scope.globals.find? name = some type) :
      Plain p scope known d (type.Represents :: known)
  | localSet {known : Known} {d : Datum} {name : Text} {type : Ty} {P : Int32 → Prop}
      (instr : d.instr = .localSet (identifier name)) (var : scope.local? name = some type)
      (value : ∀ v, P v → type.Represents v) : Plain p scope (P :: known) d known
  | globalSet {known : Known} {d : Datum} {name : Text} {type : Ty} {P : Int32 → Prop}
      (instr : d.instr = .globalSet (identifier name))
      (var : p.scope.globals.find? name = some type)
      (value : ∀ v, P v → type.Represents v) : Plain p scope (P :: known) d known
  | discard {known : Known} {d : Datum} {P : Int32 → Prop} (instr : d.instr = .localSet scratch) :
      Plain p scope (P :: known) d known
  /-- Only a truth value is negated. -/
  | arith {known : Known} {d : Datum} {op : ArithOp} {P Q R : Int32 → Prop}
      (instr : d.instr = .arith op)
      (value : ∀ lhs rhs v, P lhs → Q rhs → op.apply lhs rhs = .ok v → R v)
      (negates : op = .xor → ∀ v, P v → Ty.bool.Represents v) :
      Plain p scope (Q :: P :: known) d (R :: known)
  | host {known args : Known} {d : Datum} {host : Host} {signature : Signature}
      (instr : d.instr = .call (identifier host.name)) (count : args.length = host.arity)
      (builtin : builtins.find? host.name = some signature) :
      Plain p scope (args.reverse ++ known) d (signature.returns.Represents :: known)
  | call {known args : Known} {d : Datum} {f : FuncDef Ty}
      (instr : d.instr = .call (identifier f.name)) (mem : f ∈ p.functions)
      (params : List.Forall₂ (fun (P : Int32 → Prop) (type : Ty) => ∀ v, P v → type.Represents v)
        args f.signature.params) :
      Plain p scope (args.reverse ++ known) d (f.returns.Represents :: known)

/-! ## Code -/

/-- Plain instructions, one after the other. -/
inductive Straight (p : Program Ty) (scope : Scope) : Known → List Datum → Known → Prop
  | nil {known : Known} : Straight p scope known [] known
  | cons {known middle known' : Known} {d : Datum} {code : List Datum}
      (first : Plain p scope known d middle) (rest : Straight p scope middle code known') :
      Straight p scope known (d :: code) known'

/-- Code that runs inside blocks and loops with the given labels, and that ends without operands. -/
inductive Typed (p : Program Ty) (scope : Scope) : List Text → Known → List Datum → Prop
  | nil {labels : List Text} : Typed p scope labels [] []
  | plain {labels : List Text} {known known' : Known} {d : Datum} {code : List Datum}
      (first : Plain p scope known d known') (rest : Typed p scope labels known' code) :
      Typed p scope labels known (d :: code)
  | ret {labels : List Text} {known : Known} {d : Datum} {code : List Datum} {P : Int32 → Prop}
      (instr : d.instr = .ret) (inFunction : scope.inFunction = true)
      (value : ∀ v, P v → scope.returns.Represents v) :
      Typed p scope labels (P :: known) (d :: code)
  | br {labels : List Text} {known : Known} {d : Datum} {code : List Datum} {label : Text}
      (instr : d.instr = .br label) (mem : label ∈ labels) : Typed p scope labels known (d :: code)
  | brIf {labels : List Text} {known : Known} {d : Datum} {code : List Datum} {label : Text}
      {P : Int32 → Prop} (instr : d.instr = .brIf label) (mem : label ∈ labels)
      (rest : Typed p scope labels known code) : Typed p scope labels (P :: known) (d :: code)
  | block {labels : List Text} {d : Datum} {code : List Datum} {label : Datum} {body : List Datum}
      (instr : d.instr = .block (some label) body) (named : label.text ≠ [])
      (inside : Typed p scope (label.text :: labels) [] body)
      (rest : Typed p scope labels [] code) :
      Typed p scope labels [] (d :: code)
  | loop {labels : List Text} {d : Datum} {code : List Datum} {label : Datum} {body : List Datum}
      (instr : d.instr = .loop (some label) body) (named : label.text ≠ [])
      (inside : Typed p scope (label.text :: labels) [] body)
      (rest : Typed p scope labels [] code) :
      Typed p scope labels [] (d :: code)
  | cond {labels : List Text} {d : Datum} {code arms : List Datum} {P : Int32 → Prop}
      (instr : d.instr = .cond arms)
      (inside : ∀ arm ∈ arms, Typed p scope labels [] arm.items.tail)
      (rest : Typed p scope labels [] code) : Typed p scope labels [P] (d :: code)

variable {p : Program Ty} {scope : Scope}

theorem Straight.single {known known' : Known} {d : Datum} (h : Plain p scope known d known') :
    Straight p scope known [d] known' :=
  .cons h .nil

/-- One stretch of code after another. -/
theorem Straight.append {known middle known' : Known} {code more : List Datum}
    (h : Straight p scope known code middle) (hmore : Straight p scope middle more known') :
    Straight p scope known (code ++ more) known' := by
  induction h with
  | nil => exact hmore
  | cons first _ ih => exact .cons first (ih hmore)

/-- Code without branches in front of other code. -/
theorem Straight.typed {labels : List Text} {known known' : Known} {code rest : List Datum}
    (h : Straight p scope known code known') (hrest : Typed p scope labels known' rest) :
    Typed p scope labels known (code ++ rest) := by
  induction h with
  | nil => exact hrest
  | cons first _ ih => exact .plain first (ih hrest)

/-! ## What is left to do -/

/-- What a function has left to do fits its operands. -/
def TodoTyped (p : Program Ty) (scope : Scope) : Known → List Control → Prop
  | known, [] => known = []
  | known, .seq code :: rest =>
    Typed p scope (labelsOf rest) known code ∧ TodoTyped p scope [] rest
  | known, .block name height :: rest =>
    known = [] ∧ name ≠ [] ∧ height = 0 ∧ TodoTyped p scope [] rest
  | known, .loop name height body :: rest =>
    known = [] ∧ name ≠ [] ∧ height = 0 ∧ Typed p scope (name :: labelsOf rest) [] body ∧
      TodoTyped p scope [] rest

/-- Typed code has no label without a name. -/
theorem nil_not_mem_labelsOf {known : Known} {todo : List Control}
    (h : TodoTyped p scope known todo) :
    [] ∉ labelsOf todo := by
  induction todo generalizing known with
  | nil => exact List.not_mem_nil
  | cons c rest ih =>
    cases c with
    | seq code => exact ih h.2
    | block name height =>
      rw [labelsOf_block, List.mem_cons, not_or]
      exact ⟨h.2.1.symm, ih h.2.2.2⟩
    | loop name height body =>
      rw [labelsOf_loop, List.mem_cons, not_or]
      exact ⟨h.2.1.symm, ih h.2.2.2.2⟩

/-- A branch to a label of what is left to do leads to the bottom of the stack, where what is then
left to do fits. -/
theorem branchTo_typed {known : Known} {todo : List Control} {label : Text} (stack : OperandStack)
    (hmem : label ∈ labelsOf todo) (h : TodoTyped p scope known todo) :
    ∃ next, branchTo label stack todo = (next, stack.resize 0) ∧ TodoTyped p scope [] next := by
  induction todo generalizing known with
  | nil => cases hmem
  | cons c rest ih =>
    cases c with
    | seq code => exact ih hmem h.2
    | block name height =>
      obtain ⟨-, -, rfl, hrest⟩ := h
      rw [branchTo]
      by_cases hname : name = label
      · rw [if_pos hname]
        exact ⟨rest, rfl, hrest⟩
      · rw [if_neg hname]
        rw [labelsOf_block, List.mem_cons] at hmem
        exact ih (hmem.resolve_left fun he => hname he.symm) hrest
    | loop name height body =>
      obtain ⟨-, hne, rfl, hbody, hrest⟩ := h
      rw [branchTo]
      by_cases hname : name = label
      · -- The loop starts again, with itself still to end.
        rw [if_pos hname]
        exact ⟨.seq body :: .loop name 0 body :: rest, rfl, hbody, rfl, hne, rfl, hbody, hrest⟩
      · rw [if_neg hname]
        rw [labelsOf_loop, List.mem_cons] at hmem
        exact ih (hmem.resolve_left fun he => hname he.symm) hrest

theorem live_resize_zero (stack : OperandStack) : (stack.resize 0).live = [] := by
  rw [OperandStack.live_resize (Nat.zero_le _), Nat.sub_zero]
  exact List.drop_length

end Representation

end WatCompiler
