import WatCompiler.Proofs.SyntaxTree.Covers
import WatCompiler.Proofs.Token.Spelling

/-!
# The shape of syntax trees

What can be said of the tree of a source without the rules of the grammar: every node starts in the
source; leaves are spelled as their kind says and inner nodes have the children that their kind has
(`Node.Shaped`); the words of the leaves are those of the tokens (`words_of_covers`); and nodes
beside each other take stretches of the source that follow each other (`tiled_of_covers`).
-/

namespace WatCompiler.SyntaxTree

open Token (StandsIn InOrder isIdentifier isNumeral)

/-- The spellings of leaves of a kind. An inner node has none. -/
def Kind.Spelled : Kind → Text → Prop
  | variableName, t | propertyName, t => isIdentifier t = true
  | number, t => isNumeral t = true
  | boolean, t => t = Keyword.true.text ∨ t = Keyword.false.text
  | none, t => t = Keyword.none.text
  | assignOp, t => t = Operator.assign.text
  | lexeme spelling, t => t = spelling
  | string, _ | arithOp, _ | compareOp, _ | bitOp, _ => True
  | _, _ => False

mutual

/-- The node starts in the source, and it is a leaf with a spelling of its kind or an inner node
with children of its kind; and so are all nodes below it. -/
def Node.Shaped (source : Text) : Node → Prop
  | ⟨kind, start, stop, []⟩ => start ≤ source.length ∧ kind.Spelled (source.slice start stop)
  | ⟨kind, start, _, first :: more⟩ =>
    start ≤ source.length ∧ kind.Admits (first :: more) ∧ first.Shaped source ∧
      AllShaped source more

/-- All of the trees are such. -/
def AllShaped (source : Text) : List Node → Prop
  | [] => True
  | n :: rest => n.Shaped source ∧ AllShaped source rest

end

mutual

/-- The texts of the leaves. -/
def Node.words (source : Text) : Node → List Text
  | ⟨_, start, stop, []⟩ => [source.slice start stop]
  | ⟨_, _, _, first :: more⟩ => first.words source ++ wordsAll source more

/-- The texts of the leaves of some trees. -/
def wordsAll (source : Text) : List Node → List Text
  | [] => []
  | n :: rest => n.words source ++ wordsAll source rest

end

namespace Node

variable {source : Text} {n : Node}

theorem words_leaf (h : n.children = []) : n.words source = [n.text source] := by
  obtain ⟨kind, start, stop, children⟩ := n
  cases h
  rw [words]
  rfl

namespace Shaped

theorem start_le (h : n.Shaped source) : n.start ≤ source.length := by
  obtain ⟨kind, start, stop, children⟩ := n
  cases children with
  | nil =>
    rw [Shaped] at h
    exact h.1
  | cons first more =>
    rw [Shaped] at h
    exact h.1

theorem children (h : n.Shaped source) : AllShaped source n.children := by
  obtain ⟨kind, start, stop, children⟩ := n
  cases children with
  | nil => trivial
  | cons first more =>
    rw [Shaped] at h
    exact h.2.2

/-- A node of a kind that has no inner nodes is a leaf, and its text is its only word. -/
theorem leaf {kind : Kind} (h : n.Shaped source) (hkind : n.kind = kind)
    (hleaf : ∀ ns, ¬ kind.Admits ns) :
    n.children = [] ∧ n.words source = [n.text source] ∧ kind.Spelled (n.text source) := by
  obtain ⟨kind, start, stop, children⟩ := n
  cases hkind
  cases children with
  | nil =>
    rw [Shaped] at h
    exact ⟨rfl, words_leaf rfl, h.2⟩
  | cons first more =>
    rw [Shaped] at h
    exact absurd h.2.1 (hleaf _)

/-- A node of a kind that has no leaves has children, and its words are theirs. -/
theorem inner {kind : Kind} (h : n.Shaped source) (hkind : n.kind = kind)
    (hinner : ∀ t, ¬ kind.Spelled t) :
    n.children ≠ [] ∧ n.words source = wordsAll source n.children ∧ kind.Admits n.children := by
  obtain ⟨kind, start, stop, children⟩ := n
  cases hkind
  cases children with
  | nil =>
    rw [Shaped] at h
    exact absurd h.2 (hinner _)
  | cons first more =>
    rw [Shaped] at h
    exact ⟨List.cons_ne_nil _ _, by rw [words, wordsAll], h.2.1⟩

end Shaped

end Node

/-! ## Nodes that cover tokens -/

section Covers

variable {source : Text} {ts : List Token} {ns : List Node}

theorem spelled_of_takes {kind : Kind} {sort : Token.Kind} {text : Text}
    (htakes : kind.takes sort = true) (hspells : sort.Spells text) : kind.Spelled text := by
  cases kind with
  | lexeme spelling =>
    cases sort with
    | keyword k => exact hspells.trans (of_decide_eq_true htakes).symm
    | op o => exact hspells.trans (of_decide_eq_true htakes).symm
    | _ => cases htakes
  | boolean =>
    rcases Bool.or_eq_true_iff.mp htakes with htakes | htakes
    · cases of_decide_eq_true htakes
      exact Or.inl hspells
    · cases of_decide_eq_true htakes
      exact Or.inr hspells
  | variableName | propertyName | number | none | assignOp =>
    cases of_decide_eq_true htakes
    exact hspells
  | string | arithOp | compareOp | bitOp => trivial
  | _ => cases htakes

/-- Layout is no leaf. -/
theorem isLayout_of_takes {kind : Kind} {sort : Token.Kind} (h : kind.takes sort = true) :
    isLayout sort = false := by
  cases sort with
  | endOfInput | newline | indent | dedent => cases kind <;> cases h
  | _ => rfl

theorem shaped_of_covers (h : Covers ts ns) (hts : ∀ t ∈ ts, StandsIn source t) :
    AllShaped source ns := by
  induction h with
  | nil => trivial
  | layout silent _ ih => exact ih (List.forall_mem_cons.mp hts).2
  | @leaf kind t ts ns agrees _ ih =>
    obtain ⟨ht, hrest⟩ := List.forall_mem_cons.mp hts
    refine ⟨?_, ih hrest⟩
    rw [Node.leaf, Node.Shaped, ← ht.text]
    exact ⟨ht.start_le, spelled_of_takes agrees ht.spells⟩
  | @branch kind inner ts first more ns admits _ _ ihinside ihrest =>
    obtain ⟨hinner, hrest⟩ := List.forall_mem_append.mp hts
    have hinside := ihinside hinner
    refine ⟨?_, ihrest hrest⟩
    rw [Node.branch, Node.Shaped]
    exact ⟨hinside.1.start_le, admits, hinside⟩

/-- The words of the leaves are those of the tokens. -/
theorem words_of_covers (h : Covers ts ns) (hts : ∀ t ∈ ts, StandsIn source t) :
    wordsAll source ns = (ts.filter fun t => !isLayout t.kind).map Token.text := by
  induction h with
  | nil => rfl
  | layout silent _ ih =>
    rw [List.filter_cons_of_neg (by rw [silent]; decide)]
    exact ih (List.forall_mem_cons.mp hts).2
  | @leaf kind t ts ns agrees _ ih =>
    obtain ⟨ht, hrest⟩ := List.forall_mem_cons.mp hts
    rw [List.filter_cons_of_pos (by rw [isLayout_of_takes agrees]; rfl), List.map_cons, wordsAll,
      ih hrest, ht.text]
    rfl
  | @branch kind inner ts first more ns _ _ _ ihinside ihrest =>
    obtain ⟨hinner, hrest⟩ := List.forall_mem_append.mp hts
    rw [wordsAll, ihrest hrest, List.filter_append, List.map_append, ← ihinside hinner]
    rfl

/-- A token that is not layout takes some bytes. -/
theorem start_lt_stop {t : Token} (h : StandsIn source t) (ht : isLayout t.kind = false) :
    t.start < t.stop := by
  have hne : t.text ≠ [] := by
    intro hnil
    have hspells := h.spells
    rw [hnil] at hspells
    cases hkind : t.kind with
    | keyword k =>
      rw [hkind] at hspells
      cases k <;> cases hspells
    | op o =>
      rw [hkind] at hspells
      cases o <;> cases hspells
    | string =>
      rw [hkind] at hspells
      rcases hspells with hspells | hspells <;> cases hspells
    | ident | int =>
      rw [hkind] at hspells
      cases hspells
    | endOfInput | newline | indent | dedent =>
      rw [hkind] at ht
      cases ht
  by_contra hle
  apply hne
  rw [h.text, Text.slice, Nat.sub_eq_zero_of_le (Nat.le_of_not_lt hle), List.take_zero]

/-- Each of the nodes takes some bytes between two offsets, one node behind the other. -/
structure Tiled (start : Nat) (ns : List Node) (stop : Nat) : Prop where
  between : ∀ n ∈ ns, start ≤ n.start ∧ n.start < n.stop ∧ n.stop ≤ stop
  apart : ns.Pairwise fun n m => n.stop ≤ m.start

/-- The nodes may start sooner. -/
theorem Tiled.of_le {start start' stop : Nat} (hle : start' ≤ start) (h : Tiled start ns stop) :
    Tiled start' ns stop where
  between n hn := by
    have := h.between n hn
    omega
  apart := h.apart

/-- A node before all of them. -/
theorem Tiled.cons {start middle stop : Nat} {n : Node} (hstart : start ≤ n.start)
    (hne : n.start < n.stop) (hstop : n.stop ≤ middle) (h : Tiled middle ns stop)
    (hle : middle ≤ stop) : Tiled start (n :: ns) stop where
  between := by
    refine List.forall_mem_cons.mpr ⟨by omega, fun m hm => ?_⟩
    have := h.between m hm
    omega
  apart := .cons (fun m hm => by have := h.between m hm; omega) h.apart

/-- The children of a node take bytes from the start of the first one up to the stop of the last
one. -/
theorem Tiled.inner {start stop : Nat} {first : Node} {more : List Node}
    (h : Tiled start (first :: more) stop) :
    Tiled first.start (first :: more) (more.getLastD first).stop ∧
      start ≤ first.start ∧ first.start < (more.getLastD first).stop ∧
      (more.getLastD first).stop ≤ stop := by
  have hfirst := h.between first List.mem_cons_self
  -- Every other child stands before the last one.
  have hsplit : (first :: more).dropLast ++ [more.getLastD first] = first :: more := by
    rw [← List.getLast_eq_getLastD (List.cons_ne_nil first more)]
    exact List.dropLast_concat_getLast _
  have hlast := h.between (more.getLastD first)
    (hsplit ▸ List.mem_append_right _ (List.mem_singleton_self _))
  have hbefore : ∀ n ∈ first :: more, n.stop ≤ (more.getLastD first).stop := by
    intro n hn
    have hapart := h.apart
    rw [← hsplit] at hn hapart
    rcases List.mem_append.mp hn with hn | hn
    · have := (List.pairwise_append.mp hapart).2.2 n hn _ (List.mem_singleton_self _)
      omega
    · exact Nat.le_of_eq (congrArg Node.stop (List.mem_singleton.mp hn))
  have hafter : ∀ n ∈ first :: more, first.start ≤ n.start := by
    refine List.forall_mem_cons.mpr ⟨Nat.le_refl _, fun n hn => ?_⟩
    have := (List.pairwise_cons.mp h.apart).1 n hn
    omega
  have hself := hbefore first List.mem_cons_self
  refine ⟨⟨fun n hn => ⟨hafter n hn, (h.between n hn).2.1, hbefore n hn⟩, h.apart⟩, ?_, ?_, ?_⟩
  · omega
  · omega
  · omega

/-- The nodes that cover tokens stand between the offsets of the tokens, one behind the other. -/
theorem tiled_of_covers (h : Covers ts ns) (hts : ∀ t ∈ ts, StandsIn source t) {start stop : Nat}
    (horder : InOrder start ts stop) : Tiled start ns stop := by
  induction h generalizing start stop with
  | nil => exact ⟨nofun, .nil⟩
  | layout silent _ ih =>
    obtain ⟨hstart, hstop, hrest⟩ := horder
    exact (ih (List.forall_mem_cons.mp hts).2 hrest).of_le (Nat.le_trans hstart hstop)
  | @leaf kind t ts ns agrees _ ih =>
    obtain ⟨hstart, -, hrest⟩ := horder
    obtain ⟨ht, hts⟩ := List.forall_mem_cons.mp hts
    have hlt : t.start < t.stop := start_lt_stop ht (isLayout_of_takes agrees)
    exact .cons hstart hlt (Nat.le_refl _) (ih hts hrest) hrest.le
  | @branch kind inner ts first more ns _ _ _ ihinside ihrest =>
    obtain ⟨hinner, hts⟩ := List.forall_mem_append.mp hts
    obtain ⟨mid, horder, hrest⟩ := Token.inOrder_append.mp horder
    obtain ⟨-, hstart, hlt, hstop⟩ := (ihinside hinner horder).inner
    exact .cons hstart hlt hstop (ihrest hts hrest) hrest.le

/-- Nodes beside each other start one after the other, between the offsets of their tokens. -/
theorem starts_of_covers (h : Covers ts ns) (hts : ∀ t ∈ ts, StandsIn source t) {start stop : Nat}
    (horder : InOrder start ts stop) :
    (∀ n ∈ ns, start ≤ n.start ∧ n.start < stop) ∧
      ns.Pairwise fun n m => n.start < m.start := by
  have htiled := tiled_of_covers h hts horder
  refine ⟨fun n hn => ?_, htiled.apart.imp_of_mem fun {n m} hn _ hle => ?_⟩
  · have := htiled.between n hn
    omega
  · have := htiled.between n hn
    omega

end Covers

end WatCompiler.SyntaxTree
