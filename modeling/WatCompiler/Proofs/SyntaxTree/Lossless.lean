import WatCompiler.Proofs.SyntaxTree.Shaped
import WatCompiler.Proofs.Token.Located

/-!
# Trees lose nothing

The leaves of the tree of a source are its tokens, from left to right, each of them once, but for
those that only show the line structure; every other node takes the bytes from its first child to
its last one; and nodes beside each other do not overlap (`lossless_of_parse`).

All of it follows from the fact that the tree covers the tokens (`Covers`), whatever rules of the
grammar have made the tree.
-/

namespace WatCompiler

/-- The offsets between which a token stands. -/
def Token.span (t : Token) : Nat × Nat := (t.start, t.stop)

namespace SyntaxTree

open Token (StandsIn InOrder)

/-- The offsets between which a node stands. -/
def Node.span (n : Node) : Nat × Nat := (n.start, n.stop)

mutual

/-- The nodes without children in a tree, from left to right. -/
def Node.leaves : Node → List Node
  | ⟨kind, start, stop, []⟩ => [⟨kind, start, stop, []⟩]
  | ⟨_, _, _, first :: more⟩ => first.leaves ++ leavesAll more

/-- The leaves of some trees. -/
def leavesAll : List Node → List Node
  | [] => []
  | n :: rest => n.leaves ++ leavesAll rest

end

/-- The node is one of the trees or a node in one of them. -/
inductive Occurs (n : Node) : List Node → Prop
  | here {ns : List Node} (mem : n ∈ ns) : Occurs n ns
  | inside {m : Node} {ns : List Node} (mem : m ∈ ns) (rest : Occurs n m.children) : Occurs n ns

/-- A node occurs in the first tree or in one of the others. -/
theorem Occurs.of_cons {n m : Node} {ns : List Node} (h : Occurs n (m :: ns)) :
    n = m ∨ Occurs n m.children ∨ Occurs n ns := by
  cases h with
  | here mem => exact (List.mem_cons.mp mem).imp id fun mem => .inr (.here mem)
  | inside mem rest =>
    rcases List.mem_cons.mp mem with rfl | mem
    · exact .inr (.inl rest)
    · exact .inr (.inr (.inside mem rest))

theorem Occurs.ne_nil {n : Node} {ns : List Node} (h : Occurs n ns) : ns ≠ [] := by
  rintro rfl
  cases h with
  | here mem | inside mem => cases mem

/-- A node takes some bytes. Those of its children lie one behind the other, and if it has any, they
start and stop where the node does. -/
structure Node.IsTiled (n : Node) : Prop where
  nonempty : n.start < n.stop
  spans : ∀ first more, n.children = first :: more →
    n.start = first.start ∧ n.stop = (more.getLastD first).stop
  children : n.children.Pairwise fun a b => a.stop ≤ b.start

section Covers

variable {source : Text} {ts : List Token} {ns : List Node}

/-- The leaves stand where the tokens stand that are not layout. -/
theorem leaves_of_covers (h : Covers ts ns) :
    (leavesAll ns).map Node.span = (ts.filter fun t => !isLayout t.kind).map Token.span := by
  induction h with
  | nil => rfl
  | layout silent _ ih =>
    rw [List.filter_cons_of_neg (by rw [silent]; decide)]
    exact ih
  | @leaf kind t ts ns agrees _ ih =>
    rw [List.filter_cons_of_pos (by rw [isLayout_of_takes agrees]; rfl), List.map_cons, leavesAll,
      List.map_append, ih]
    rfl
  | @branch kind inner ts first more ns _ _ _ ihinside ihrest =>
    -- The leaves of the node are those of its children.
    have hnode : (Node.branch kind first more).leaves = leavesAll (first :: more) := by
      rw [Node.branch, Node.leaves, leavesAll]
    rw [leavesAll, List.map_append, hnode, ihinside, ihrest, List.filter_append, List.map_append]

theorem isTiled_of_covers (h : Covers ts ns) (hts : ∀ t ∈ ts, StandsIn source t) {start stop : Nat}
    (horder : InOrder start ts stop) {n : Node} (hn : Occurs n ns) : n.IsTiled := by
  induction h generalizing start stop with
  | nil => exact absurd rfl hn.ne_nil
  | layout silent _ ih =>
    exact ih (List.forall_mem_cons.mp hts).2 horder.2.2 hn
  | @leaf kind t ts ns agrees _ ih =>
    obtain ⟨ht, hts⟩ := List.forall_mem_cons.mp hts
    rcases hn.of_cons with rfl | hinside | hrest
    · exact ⟨start_lt_stop ht (isLayout_of_takes agrees), nofun, .nil⟩
    · exact absurd rfl hinside.ne_nil
    · exact ih hts horder.2.2 hrest
  | @branch kind inner ts first more ns _ inside _ ihinside ihrest =>
    obtain ⟨hinner, hts⟩ := List.forall_mem_append.mp hts
    obtain ⟨mid, horder, hafter⟩ := Token.inOrder_append.mp horder
    rcases hn.of_cons with rfl | hinside | hrest
    · obtain ⟨htiled, -, hlt, -⟩ := (tiled_of_covers inside hinner horder).inner
      refine ⟨hlt, fun first' more' hchildren => ?_, htiled.apart⟩
      cases hchildren
      exact ⟨rfl, rfl⟩
    · exact ihinside hinner horder hinside
    · exact ihrest hts hafter hrest

end Covers

/-- **The tree of a source loses nothing.** From left to right, its leaves stand exactly where the
tokens of the source stand that are not layout. The statements stand one behind the other, and every
node in them takes the bytes from its first child to its last one, with its children one behind the
other. -/
theorem lossless_of_parse {source : Text} {tree : Node} (h : parse source = .ok tree) :
    ∃ ts, tokenize source = .ok ts ∧ tree.kind = .script ∧
      (leavesAll tree.children).map Node.span =
        (ts.filter fun t => !isLayout t.kind).map Token.span ∧
      (tree.children.Pairwise fun a b => a.stop ≤ b.start) ∧
      ∀ n, Occurs n tree.children → n.IsTiled := by
  obtain ⟨hkind, used, t, rest, htokens, hend, hcovers⟩ := covers_of_parse h
  have hstands : ∀ t ∈ used, StandsIn source t := fun t ht =>
    standsIn_of_tokenize htokens t (List.mem_append_left _ ht)
  obtain ⟨mid, horder, -⟩ := Token.inOrder_append.mp (inOrder_of_tokenize htokens)
  -- Behind the tokens that the tree covers there is only the end of the input.
  cases eq_nil_of_endOfInput htokens hend
  have hvisible : (used ++ [t]).filter (fun t => !isLayout t.kind) =
      used.filter fun t => !isLayout t.kind := by
    rw [List.filter_append, List.filter_cons_of_neg (by rw [hend]; decide), List.filter_nil,
      List.append_nil]
  refine ⟨used ++ [t], htokens, hkind, ?_, (tiled_of_covers hcovers hstands horder).apart, ?_⟩
  · rw [hvisible]
    exact leaves_of_covers hcovers
  · exact fun n hn => isTiled_of_covers hcovers hstands horder hn

/-- Definitions with parameters, an `elif`, an attribute, operators and an empty list of
arguments. -/
def branchesSource : Text :=
  "def f(a: int, b) -> int:\n  if not a:\n    return -a ** 2\n  elif b.c:\n    pass\n" ++
    "  return f()\nx = (1)\n"

theorem lossless_of_parse_branchesSource :
    ∃ tree ts, parse branchesSource = .ok tree ∧ tokenize branchesSource = .ok ts ∧
      (leavesAll tree.children).length = 36 ∧
      (leavesAll tree.children).map Node.span =
        (ts.filter fun t => !isLayout t.kind).map Token.span ∧
      ∀ n, Occurs n tree.children → n.IsTiled := by
  have hleaves : (parse branchesSource).toOption.map
      (fun tree => (leavesAll tree.children).length) =
      some 36 := by
    decide +kernel
  obtain ⟨tree, htree, hlength⟩ := toOption_map_eq_some.mp hleaves
  obtain ⟨ts, hts, -, hspans, -, htiled⟩ := lossless_of_parse htree
  exact ⟨tree, ts, htree, hts, hlength, hspans, htiled⟩

end SyntaxTree

end WatCompiler
