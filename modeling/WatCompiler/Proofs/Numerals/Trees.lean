import WatCompiler.Proofs.SyntaxTree.Shaped
import WatCompiler.Proofs.Text.Decimal

/-!
# Numerals in syntax trees

The numerals of a tree from left to right, each with its digits and its place, whether a minus sign
is applied to it directly, and whether it is the initial value of a variable. They are all numerals
among the tokens (`digits_of_covers`). Trees of two sources are parallel if they differ only in
their numerals and in the places of their nodes.
-/

namespace WatCompiler

/-- A numeral of a source. -/
structure Numeral where
  digits : Text
  /-- A minus sign is applied to it directly. -/
  negated : Bool
  /-- It is the initial value of a variable. -/
  initial : Bool
  /-- Where it starts in the source. With a minus sign it starts there. -/
  start : Nat
deriving DecidableEq, Repr

namespace Numeral

/-- The number that the digits stand for. -/
def magnitude (x : Numeral) : Nat := Text.digitsValue 0 x.digits

/-- The number with its sign. -/
def value (x : Numeral) : Int := if x.negated then -x.magnitude else x.magnitude

/-- The number fits in 32 bits. The largest magnitude needs its minus sign. -/
def Fits (x : Numeral) : Prop := x.magnitude ≤ if x.negated then 2147483648 else 2147483647

instance (x : Numeral) : Decidable x.Fits := inferInstanceAs (Decidable (_ ≤ _))

end Numeral

namespace SyntaxTree

open Token (StandsIn)

/-- The digits of a numeral to which a node applies a minus sign directly. -/
def negatedDigits? (source : Text) (kind : Kind) (children : List Node) : Option Text :=
  match kind, children with
  | .unaryExpression, [op, arg] =>
    if op.text source = Operator.minus.text ∧
      arg.kind = .number then some (arg.text source) else none
  | _, _ => none

/-- Whether a node defines a variable. -/
def definesVariable (kind : Kind) (children : List Node) : Bool :=
  match kind, children with
  | .assignStatement, _ :: second :: _ => second.kind = .typeDef
  | _, _ => false

mutual

/-- The numerals of a tree. -/
def Node.numerals (source : Text) : Node → List Numeral
  | ⟨kind, start, stop, children⟩ =>
    if kind = .number then [⟨source.slice start stop, false, false, start⟩]
    else
      match negatedDigits? source kind children with
      | some digits => [⟨digits, true, false, start⟩]
      | none =>
        if definesVariable kind children then
          (numeralsAll source children).map fun x => { x with initial := true }
        else numeralsAll source children

/-- The numerals of some trees. -/
def numeralsAll (source : Text) : List Node → List Numeral
  | [] => []
  | n :: rest => n.numerals source ++ numeralsAll source rest

end

section Numerals

variable {source : Text} {n : Node}

theorem eq_number_of_takes {kind : Kind} (h : kind.takes .int = true) : kind = .number := by
  cases kind with
  | number => rfl
  | _ => cases h

/-- A numeral by itself, not negated. -/
theorem Node.numerals_of_number (h : n.kind = .number) :
    n.numerals source = [⟨n.text source, false, false, n.start⟩] := by
  obtain ⟨kind, start, stop, children⟩ := n
  rw [numerals, if_pos h]
  rfl

/-- The initial value of a variable is marked as such. -/
theorem Node.numerals_of_definition (hkind : n.kind = .assignStatement)
    (hdefines : definesVariable .assignStatement n.children = true) :
    n.numerals source =
      (numeralsAll source n.children).map fun x => { x with initial := true } := by
  obtain ⟨kind, start, stop, children⟩ := n
  cases hkind
  rw [numerals, if_neg (by decide)]
  exact if_pos hdefines

/-- Nodes that are neither numerals nor signed ones nor definitions have the numerals of their
children. -/
theorem Node.numerals_of_inner (hnumber : n.kind ≠ .number)
    (hnegated : negatedDigits? source n.kind n.children = none)
    (hdefines : definesVariable n.kind n.children = false) :
    n.numerals source = numeralsAll source n.children := by
  obtain ⟨kind, start, stop, children⟩ := n
  rw [numerals, if_neg hnumber, hnegated]
  exact if_neg (Bool.eq_false_iff.mp hdefines)

/-- Whether nodes of a kind have the numerals of their children, whatever these are. -/
def Kind.gathersNumerals : Kind → Bool
  | number | unaryExpression | assignStatement => false
  | _ => true

/-- Most inner nodes have the numerals of their children. -/
theorem Node.numerals_of_gathers (h : n.kind.gathersNumerals = true) :
    n.numerals source = numeralsAll source n.children := by
  apply numerals_of_inner
  · intro hkind
    rw [hkind] at h
    cases h
  · rw [negatedDigits?]
    rintro op arg hkind -
    rw [hkind] at h
    cases h
  · rw [definesVariable]
    rintro _ _ _ hkind -
    rw [hkind] at h
    cases h

theorem Node.numerals_of_leaf (hnumber : n.kind ≠ .number) (hleaf : n.children = []) :
    n.numerals source = [] := by
  rw [numerals_of_inner hnumber, hleaf]
  · rfl
  · rw [hleaf, negatedDigits?]
    rintro _ _ _ ⟨⟩
  · rw [hleaf, definesVariable]
    rintro _ _ _ _ ⟨⟩

end Numerals

/-! ## The numerals are tokens -/

section Tokens

variable {source : Text}

/-- A sign or a definition does not change which numerals there are. -/
theorem Node.digits_of_inner {n : Node} (hn : n.Shaped source) (hinner : n.children ≠ []) :
    (n.numerals source).map Numeral.digits =
      (numeralsAll source n.children).map Numeral.digits := by
  have hnumber : n.kind ≠ .number := fun hkind => hinner (hn.leaf hkind fun _ => id).1
  by_cases hdefines : definesVariable n.kind n.children = true
  · have hkind : n.kind = .assignStatement := by
      unfold definesVariable at hdefines
      split at hdefines
      · assumption
      · cases hdefines
    rw [numerals_of_definition hkind (hkind ▸ hdefines), List.map_map]
    rfl
  cases hnegated : negatedDigits? source n.kind n.children with
  | none => rw [numerals_of_inner hnumber hnegated (Bool.eq_false_iff.mpr hdefines)]
  | some digits =>
    obtain ⟨kind, start, stop, children⟩ := n
    rw [numerals, if_neg hnumber, hnegated]
    unfold negatedDigits? at hnegated
    dsimp only at hnegated
    split at hnegated
    · next op arg =>
      split at hnegated
      · next hminus =>
        cases hnegated
        obtain ⟨hop, -⟩ := hn.children
        obtain ⟨-, -, _, _, hcons, hleaf⟩ := hn.inner rfl fun _ => id
        cases hcons
        -- The minus sign is a leaf, and it is no numeral.
        have hsign : op.kind ≠ .number := by
          intro hkind
          obtain ⟨-, -, hnumeral⟩ := hop.leaf hkind fun _ => id
          rw [hminus.1] at hnumeral
          cases hnumeral
        rw [numeralsAll, numeralsAll, numeralsAll, Node.numerals_of_leaf hsign hleaf,
          Node.numerals_of_number hminus.2]
        rfl
      · cases hnegated
    · cases hnegated

/-- The numerals of trees are the numerals among the tokens that they cover. -/
theorem digits_of_covers {ts : List Token} {ns : List Node} (h : Covers ts ns)
    (hts : ∀ t ∈ ts, StandsIn source t) :
    (numeralsAll source ns).map Numeral.digits =
      (ts.filter fun t => t.kind = .int).map Token.text := by
  induction h with
  | nil => rfl
  | @layout t ts ns silent _ ih =>
    have hint : t.kind ≠ .int := by
      intro hint
      rw [hint] at silent
      cases silent
    rw [List.filter_cons_of_neg (by simpa using hint), ih (List.forall_mem_cons.mp hts).2]
  | @leaf kind t ts ns agrees _ ih =>
    obtain ⟨ht, hrest⟩ := List.forall_mem_cons.mp hts
    rw [numeralsAll, List.map_append, ih hrest]
    by_cases hint : t.kind = .int
    · have hkind : kind = .number := eq_number_of_takes (hint ▸ agrees)
      rw [List.filter_cons_of_pos (by simpa using hint),
        Node.numerals_of_number (show (Node.leaf kind t).kind = .number from hkind), List.map_cons,
        List.map_cons, ht.text]
      rfl
    · have hkind : kind ≠ .number := by
        rintro rfl
        exact hint (of_decide_eq_true agrees)
      rw [List.filter_cons_of_neg (by simpa using hint),
        Node.numerals_of_leaf (show (Node.leaf kind t).kind ≠ .number from hkind) rfl]
      rfl
  | @branch kind inner ts first more ns admits inside _ ih ih' =>
    obtain ⟨hinner, hrest⟩ := List.forall_mem_append.mp hts
    have hshaped := shaped_of_covers (Covers.branch admits inside .nil)
      (fun t ht => hinner t (by simpa using ht))
    rw [numeralsAll, List.map_append, ih' hrest, List.filter_append, List.map_append, ← ih hinner,
      Node.digits_of_inner hshaped.1 (List.cons_ne_nil _ _)]
    rfl

end Tokens

/-! ## Parallel trees -/

section Parallel

variable (source source' : Text)

mutual

/-- Two trees of two sources are the same but for numerals and places. -/
def Node.Parallel : Node → Node → Prop
  | ⟨kind, start, stop, children⟩, ⟨kind', start', stop', children'⟩ =>
    kind' = kind ∧
      (children = [] → kind ≠ .number → source'.slice start' stop' = source.slice start stop) ∧
      AllParallel children children'

/-- The trees of two lists are the same in this sense. -/
def AllParallel : List Node → List Node → Prop
  | [], [] => True
  | n :: rest, n' :: rest' => n.Parallel n' ∧ AllParallel rest rest'
  | _, _ => False

end

variable {source source'} {n n' : Node} {ns ns' : List Node}

theorem Node.Parallel.kind_eq (h : n.Parallel source source' n') : n'.kind = n.kind := by
  obtain ⟨kind, start, stop, children⟩ := n
  obtain ⟨kind', start', stop', children'⟩ := n'
  rw [Parallel] at h
  exact h.1

/-- Leaves other than numerals have the same text in both trees. -/
theorem Node.Parallel.text_eq (h : n.Parallel source source' n') (hleaf : n.children = [])
    (hnumber : n.kind ≠ .number) : n'.text source' = n.text source := by
  obtain ⟨kind, start, stop, children⟩ := n
  obtain ⟨kind', start', stop', children'⟩ := n'
  rw [Parallel] at h
  exact h.2.1 hleaf hnumber

theorem Node.Parallel.children (h : n.Parallel source source' n') :
    AllParallel source source' n.children n'.children := by
  obtain ⟨kind, start, stop, children⟩ := n
  obtain ⟨kind', start', stop', children'⟩ := n'
  rw [Parallel] at h
  exact h.2.2

theorem AllParallel.nil_eq (h : AllParallel source source' [] ns') : ns' = [] := by
  cases ns' with
  | nil => rfl
  | cons => cases h

/-- The first nodes of parallel lists are parallel, and so are the others. -/
theorem AllParallel.exists_cons (h : AllParallel source source' (n :: ns) ns') :
    ∃ n' rest', ns' = n' :: rest' ∧ n.Parallel source source' n' ∧
      AllParallel source source' ns rest' := by
  cases ns' with
  | nil => cases h
  | cons n' rest' => exact ⟨n', rest', rfl, h.1, h.2⟩

/-- Two well-shaped trees of two sources that are parallel. -/
structure Counterparts (source source' : Text) (n n' : Node) : Prop where
  parallel : n.Parallel source source' n'
  shaped : n.Shaped source
  shaped' : n'.Shaped source'

/-- Two lists of such trees. -/
structure AllCounterparts (source source' : Text) (ns ns' : List Node) : Prop where
  parallel : AllParallel source source' ns ns'
  shaped : AllShaped source ns
  shaped' : AllShaped source' ns'

theorem Counterparts.kind_eq (h : Counterparts source source' n n') : n'.kind = n.kind :=
  h.parallel.kind_eq

theorem Counterparts.children (h : Counterparts source source' n n') :
    AllCounterparts source source' n.children n'.children :=
  ⟨h.parallel.children, h.shaped.children, h.shaped'.children⟩

/-- Leaves other than numerals are spelled alike, and hold no numeral. -/
theorem Counterparts.text_eq (h : Counterparts source source' n n') (hleaf : n.children = [])
    (hnumber : n.kind ≠ .number) : n'.text source' = n.text source ∧ n'.numerals source' = [] := by
  have hleaf' : n'.children = [] := by
    have hchildren := h.parallel.children
    rw [hleaf] at hchildren
    exact hchildren.nil_eq
  exact ⟨h.parallel.text_eq hleaf hnumber, Node.numerals_of_leaf (h.kind_eq ▸ hnumber) hleaf'⟩

/-- A leaf other than a numeral has no numerals and the text of its counterpart. -/
theorem Counterparts.leaf {kind : Kind} (h : Counterparts source source' n n')
    (hkind : n.kind = kind)
    (hleaf : ∀ ns, ¬ kind.Admits ns) (hnumber : kind ≠ .number) :
    n'.text source' = n.text source ∧ n'.numerals source' = [] :=
  h.text_eq (h.shaped.leaf hkind hleaf).1 (hkind ▸ hnumber)

/-- A leaf other than a numeral adds no numeral to those of the nodes after it. -/
theorem Counterparts.numerals_cons {kind : Kind} (h : Counterparts source source' n n')
    (hkind : n.kind = kind) (hleaf : ∀ ns, ¬ kind.Admits ns) (hnumber : kind ≠ .number) :
    numeralsAll source' (n' :: ns') = numeralsAll source' ns' := by
  rw [numeralsAll, (h.leaf hkind hleaf hnumber).2, List.nil_append]

theorem AllCounterparts.nil_eq (h : AllCounterparts source source' [] ns') : ns' = [] :=
  h.parallel.nil_eq

/-- The first of them, and the others. -/
theorem AllCounterparts.exists_cons (h : AllCounterparts source source' (n :: ns) ns') :
    ∃ n' rest', ns' = n' :: rest' ∧ Counterparts source source' n n' ∧
      AllCounterparts source source' ns rest' := by
  obtain ⟨n', rest', rfl, hn, hrest⟩ := h.parallel.exists_cons
  exact ⟨n', rest', rfl, ⟨hn, h.shaped.1, h.shaped'.1⟩, ⟨hrest, h.shaped.2, h.shaped'.2⟩⟩

end Parallel

end SyntaxTree

end WatCompiler
