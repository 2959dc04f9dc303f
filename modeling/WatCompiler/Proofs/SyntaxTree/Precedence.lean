import WatCompiler.Proofs.Basic
import WatCompiler.SyntaxTree.Expression

/-!
# Precedence and associativity

How the rules for expressions group operators and operands. A syntax tree only knows where its
tokens stand; `TokenTree` is a tree that still has them, so that its operators have levels. Main
statement: the tokens of an expression make up such a tree with the node of the expression, and
everywhere in it the operands of operators bind tightly enough (`grouped_of_expression`).

What carries the proof is which operators can come behind an expression that the rules have read
(`Admits`): every operator on its right edge has read its last operand up to a token that binds more
loosely than the level of this operand.
-/

namespace WatCompiler.SyntaxTree

/-! ## Levels -/

namespace Level

variable {sort : Token.Kind} {q level : Nat}

/-- A right operand is at most one level tighter than its operator. -/
theorem rightOf_le (sort : Token.Kind) (p : Nat) : rightOf sort p ≤ p + 1 := by
  unfold rightOf
  split <;> omega

/-- No operator takes a right operand that is tighter than a power. -/
theorem rightOf_le_power (h : ofBinary? sort = some q) : rightOf sort q ≤ Level.power := by
  cases sort with
  | keyword k => cases k <;> cases h <;> decide
  | op o => cases o <;> cases h <;> decide
  | _ => cases h

/-- No binary operator has the level of `not`. -/
theorem compare_le (h : ofBinary? sort = some q) (hle : Level.not ≤ q) : Level.compare ≤ q := by
  cases sort with
  | keyword k => cases k <;> cases h <;> revert hle <;> decide
  | op o => cases o <;> cases h <;> decide
  | _ => cases h

/-- Only a power binds as tightly as a sign. -/
theorem eq_power (h : ofBinary? sort = some q) (hle : Level.unary ≤ q) : sort = .op .power := by
  cases sort with
  | keyword k => cases k <;> cases h <;> revert hle <;> decide
  | op o => cases o <;> cases h <;> revert hle <;> decide
  | _ => cases h

/-- Prefixed operators other than `not` are all of one level. -/
theorem eq_of_ofUnary? (h : ofUnary? sort = some level) :
    sort = .keyword .not ∨ level = Level.unary := by
  cases sort with
  | keyword k =>
    cases k <;> cases h
    exact Or.inl rfl
  | op o => cases o <;> cases h <;> exact Or.inr rfl
  | _ => cases h

end Level

/-- The kinds of nodes with an operator and its operands. -/
def Kind.isOperation : Kind → Bool
  | binaryExpression | unaryExpression => true
  | _ => false

/-- The leaf of an operator is not an operation. -/
theorem isOperation_operatorKind (sort : Token.Kind) : (operatorKind sort).isOperation = false := by
  cases sort with
  | op o => cases o <;> rfl
  | _ => rfl

theorem isOperation_of_operandKind? {sort : Token.Kind} {kind : Kind}
    (h : operandKind? sort = some kind) : kind.isOperation = false := by
  cases sort with
  | keyword k => cases k <;> cases h <;> rfl
  | ident | int | string =>
    cases h
    rfl
  | _ => cases h

/-! ## Trees of tokens -/

/-- A syntax tree with tokens as its leaves. -/
inductive TokenTree
  | leaf (kind : Kind) (t : Token)
  | branch (kind : Kind) (first : TokenTree) (more : List TokenTree)

namespace TokenTree

mutual

/-- The syntax tree itself. -/
def node : TokenTree → Node
  | leaf kind t => .leaf kind t
  | branch kind first more => .branch kind first.node (nodes more)

/-- The syntax trees of some trees. -/
def nodes : List TokenTree → List Node
  | [] => []
  | tree :: rest => tree.node :: nodes rest

end

mutual

/-- The tokens of a tree, from left to right. -/
def tokens : TokenTree → List Token
  | leaf _ t => [t]
  | branch _ first more => first.tokens ++ tokensAll more

/-- The tokens of some trees. -/
def tokensAll : List TokenTree → List Token
  | [] => []
  | tree :: rest => tree.tokens ++ tokensAll rest

end

/-- The kind of the root. -/
def kind : TokenTree → Kind
  | leaf kind _ | branch kind _ _ => kind

/-- The tree occurs in another one. -/
inductive Within (sub : TokenTree) : TokenTree → Prop
  | here : Within sub sub
  | first {kind : Kind} {first : TokenTree} {more : List TokenTree} (inside : Within sub first) :
      Within sub (.branch kind first more)
  | more {kind : Kind} {first tree : TokenTree} {more : List TokenTree} (mem : tree ∈ more)
      (inside : Within sub tree) : Within sub (.branch kind first more)

/-- The tree is another one, or it is reached from there through the last children of operations. -/
inductive OnRightEdge (sub : TokenTree) : TokenTree → Prop
  | here : OnRightEdge sub sub
  | last {kind : Kind} {first : TokenTree} {more : List TokenTree}
      (operation : kind.isOperation = true)
      (rest : OnRightEdge sub (more.getLastD first)) : OnRightEdge sub (.branch kind first more)

/-! ## Operators and their levels -/

/-- Two operands and the operator between them. -/
def binary (left : TokenTree) (op : Token) (right : TokenTree) : TokenTree :=
  .branch .binaryExpression left [.leaf (operatorKind op.kind) op, right]

/-- An operand and the operator before it. -/
def unary (op : Token) (operand : TokenTree) : TokenTree :=
  .branch .unaryExpression (.leaf (operatorKind op.kind) op) [operand]

/-- The operator between two operands. -/
def binaryOp? : TokenTree → Option Token.Kind
  | branch .binaryExpression _ [leaf _ op, _] => some op.kind
  | _ => none

/-- The operator before an operand. -/
def unaryOp? : TokenTree → Option Token.Kind
  | branch .unaryExpression (leaf _ op) [_] => some op.kind
  | _ => none

/-- The level of the operator between two operands. -/
def level? (tree : TokenTree) : Option Nat := tree.binaryOp?.bind Level.ofBinary?

/-- The level that the operator before an operand asks of it. -/
def operandLevel? (tree : TokenTree) : Option Nat := tree.unaryOp?.bind Level.ofUnary?

/-- Only binary operations have a level. -/
theorem level?_of_kind {tree : TokenTree} (h : tree.kind ≠ .binaryExpression) :
    tree.level? = none := by
  unfold level? binaryOp?
  split
  · exact absurd rfl h
  · rfl

/-- The operands of an operator of level `p` bind tightly enough. -/
structure GroupsBinary (left : TokenTree) (op : Token.Kind) (right : TokenTree) (p : Nat) :
    Prop where
  /-- On the left there is no looser operator, -/
  before : ∀ q, left.level? = some q → p ≤ q
  /-- and none at all if the operator is a power. -/
  base : op = .op .power → left.kind ≠ .binaryExpression
  /-- On the right there is only a tighter one; behind a power it may be as tight. -/
  behind : ∀ q, right.level? = some q → p < q ∨ op = .op .power ∧ p ≤ q
  /-- The operators before operands at the end of the left side do not reach beyond it. -/
  edge : ∀ sub level, OnRightEdge sub left → sub.operandLevel? = some level → p < level

/-- The operand of an operator before it binds tightly enough. -/
structure GroupsUnary (op : Token.Kind) (operand : TokenTree) : Prop where
  negated : op = .keyword .not → ∀ q, operand.level? = some q → Level.compare ≤ q
  signed : op ≠ .keyword .not → operand.kind = .binaryExpression →
    operand.binaryOp? = some (.op .power)

/-- The operator at the root, if there is one, has operands that bind tightly enough. -/
structure Groups (tree : TokenTree) : Prop where
  binary : tree.kind = .binaryExpression → ∃ left op right p, tree = .binary left op right ∧
    Level.ofBinary? op.kind = some p ∧ GroupsBinary left op.kind right p
  unary : tree.kind = .unaryExpression → ∃ op operand level, tree = .unary op operand ∧
    Level.ofUnary? op.kind = some level ∧ GroupsUnary op.kind operand

/-- All operators in the tree have operands that bind tightly enough. -/
def Grouped (tree : TokenTree) : Prop := ∀ sub, Within sub tree → Groups sub

/-- A leaf has no parts that could be grouped wrongly. -/
theorem grouped_leaf {kind : Kind} {t : Token} (h : Groups (.leaf kind t)) :
    Grouped (.leaf kind t) := by
  intro sub hsub
  cases hsub
  exact h

/-- A branch is grouped if it groups its own operands and they are grouped. -/
theorem grouped_branch {kind : Kind} {first : TokenTree} {more : List TokenTree}
    (h : Groups (.branch kind first more)) (hfirst : first.Grouped)
    (hmore : ∀ tree ∈ more, tree.Grouped) :
    Grouped (.branch kind first more) := by
  intro sub hsub
  cases hsub with
  | here => exact h
  | first inside => exact hfirst sub inside
  | more mem inside => exact hmore _ mem sub inside

/-- There is nothing to group where there is no operation. -/
theorem groups_of_kind {tree : TokenTree} (h : tree.kind.isOperation = false) : tree.Groups where
  binary hkind := by
    rw [hkind] at h
    cases h
  unary hkind := by
    rw [hkind] at h
    cases h

/-! ## What can come behind an expression -/

/-- An operator of level `p` behind the tree binds more loosely than the last operand of every
operator on the right edge. -/
structure Admits (tree : TokenTree) (p : Nat) : Prop where
  binary : ∀ sub op q, OnRightEdge sub tree → sub.binaryOp? = some op →
    Level.ofBinary? op = some q → p < Level.rightOf op q
  unary : ∀ sub level, OnRightEdge sub tree → sub.operandLevel? = some level → p < level

section Admits

variable {tree left right operand : TokenTree} {op : Token} {p q level : Nat}

/-- Behind a tree that is no operation everything can come. -/
theorem admits_of_kind (h : tree.kind.isOperation = false) : tree.Admits p where
  binary sub op q hsub hop := by
    cases hsub with
    | here =>
      unfold binaryOp? at hop
      split at hop
      · cases h
      · cases hop
    | last operation => cases h.symm.trans operation
  unary sub level hsub hlevel := by
    cases hsub with
    | here =>
      unfold operandLevel? unaryOp? at hlevel
      split at hlevel
      · cases h
      · cases hlevel
    | last operation => cases h.symm.trans operation

/-- An operation admits what binds more loosely than its right operand, if that admits it, too. -/
theorem admits_binary (hq : Level.ofBinary? op.kind = some q) (hlt : p < Level.rightOf op.kind q)
    (hright : right.Admits p) : (binary left op right).Admits p where
  binary sub other q' hsub hop hq' := by
    cases hsub with
    | here =>
      cases hop
      cases hq.symm.trans hq'
      exact hlt
    | last _ rest => exact hright.binary sub other q' rest hop hq'
  unary sub level hsub hlevel := by
    cases hsub with
    | here => cases hlevel
    | last _ rest => exact hright.unary sub level rest hlevel

/-- The same for a prefixed operator and its operand. -/
theorem admits_unary (hlevel : Level.ofUnary? op.kind = some level) (hlt : p < level)
    (hoperand : operand.Admits p) : (unary op operand).Admits p where
  binary sub other q hsub hop hq := by
    cases hsub with
    | here => cases hop
    | last _ rest => exact hoperand.binary sub other q rest hop hq
  unary sub level' hsub hlevel' := by
    cases hsub with
    | here =>
      cases hlevel.symm.trans hlevel'
      exact hlt
    | last _ rest => exact hoperand.unary sub level' rest hlevel'

end Admits

/-! ## Operators with their operands -/

section Groups

variable {left right operand : TokenTree} {op : Token} {p level : Nat}

/-- An operation groups its operands if they bind tightly enough. -/
theorem groups_binary (hp : Level.ofBinary? op.kind = some p) (hleft : left.Grouped)
    (hadmits : left.Admits p) (hright : ∀ q, right.level? = some q → Level.rightOf op.kind p ≤ q) :
    (binary left op right).Groups where
  binary _ := by
    refine ⟨left, op, right, p, rfl, hp, ?_, ?_, ?_, hadmits.unary⟩
    · intro q hq
      obtain ⟨sort, hsort, hq⟩ := Option.bind_eq_some_iff.mp hq
      have hlt := hadmits.binary left sort q .here hsort hq
      have hle := Level.rightOf_le sort q
      omega
    · intro hpower hkind
      obtain ⟨_, other, _, q, rfl, hq, -⟩ := (hleft left .here).binary hkind
      have hlt := hadmits.binary _ other.kind q .here rfl hq
      have hle := Level.rightOf_le_power hq
      rw [hpower] at hp
      cases hp
      exact absurd (Nat.lt_of_lt_of_le hlt hle) (Nat.lt_irrefl _)
    · intro q hq
      have hle := hright q hq
      unfold Level.rightOf at hle
      split at hle
      · next hpower => exact Or.inr ⟨hpower, hle⟩
      · exact Or.inl hle
  unary h := nomatch h

/-- A prefixed operator takes an operand that binds tightly enough. -/
theorem groups_unary (hlevel : Level.ofUnary? op.kind = some level) (hoperand : operand.Grouped)
    (htight : ∀ q, operand.level? = some q → level ≤ q) : (unary op operand).Groups where
  binary h := nomatch h
  unary _ := by
    refine ⟨op, operand, level, rfl, hlevel, ?_, ?_⟩
    · intro hnot q hq
      obtain ⟨sort, -, hsort⟩ := Option.bind_eq_some_iff.mp hq
      rw [hnot] at hlevel
      cases hlevel
      exact Level.compare_le hsort (htight q hq)
    · intro hnot hkind
      obtain ⟨_, other, _, q, rfl, hq, -⟩ := (hoperand operand .here).binary hkind
      have hsign : level = Level.unary := (Level.eq_of_ofUnary? hlevel).resolve_left hnot
      have hpower := Level.eq_power hq (hsign ▸ htight q hq)
      exact congrArg some hpower

end Groups

theorem nodes_append (trees more : List TokenTree) :
    nodes (trees ++ more) = nodes trees ++ nodes more := by
  induction trees with
  | nil => rfl
  | cons tree trees ih => rw [List.cons_append, nodes, nodes, ih, List.cons_append]

theorem tokensAll_append (trees more : List TokenTree) :
    tokensAll (trees ++ more) = tokensAll trees ++ tokensAll more := by
  induction trees with
  | nil => rfl
  | cons tree trees ih => rw [List.cons_append, tokensAll, tokensAll, ih, List.append_assoc]

end TokenTree

/-! ## What the rules read -/

/-- From `ts` on, the tokens before `rest` make up grouped trees, and the nodes are theirs. -/
structure Makes (ts rest : List Token) (ns : List Node) (trees : List TokenTree) : Prop where
  nodes : TokenTree.nodes trees = ns
  tokens : ts = TokenTree.tokensAll trees ++ rest
  grouped : ∀ tree ∈ trees, tree.Grouped

namespace Makes

variable {ts us rest : List Token} {t : Token} {kind : Kind} {n : Node} {ns ms : List Node}
  {tree : TokenTree} {trees more : List TokenTree}

/-- No trees are made of no tokens. -/
theorem nothing (ts : List Token) : Makes ts ts [] [] := ⟨rfl, rfl, List.forall_mem_nil _⟩

/-- What is made up to a place and from there on. -/
theorem append (h : Makes ts us ns trees) (h' : Makes us rest ms more) :
    Makes ts rest (ns ++ ms) (trees ++ more) where
  nodes := by rw [TokenTree.nodes_append, h.nodes, h'.nodes]
  tokens := by rw [h.tokens, h'.tokens, TokenTree.tokensAll_append, List.append_assoc]
  grouped := List.forall_mem_append.mpr ⟨h.grouped, h'.grouped⟩

theorem cons (h : Makes ts us [n] [tree]) (h' : Makes us rest ms more) :
    Makes ts rest (n :: ms) (tree :: more) := h.append h'

/-- A leaf of one token. -/
theorem leaf (h : kind.isOperation = false) :
    Makes (t :: ts) ts [.leaf kind t] [.leaf kind t] where
  nodes := rfl
  tokens := rfl
  grouped := List.forall_mem_singleton.mpr (TokenTree.grouped_leaf (TokenTree.groups_of_kind h))

/-- A branch of what was made. -/
theorem branch (h : Makes ts rest (n :: ns) (tree :: trees))
    (hgroups : (TokenTree.branch kind tree trees).Groups) :
    Makes ts rest [.branch kind n ns] [.branch kind tree trees] where
  nodes := by
    obtain ⟨rfl, rfl⟩ := List.cons.inj h.nodes
    rfl
  tokens := by rw [h.tokens, TokenTree.tokensAll, TokenTree.tokensAll, TokenTree.tokensAll,
    TokenTree.tokens, List.append_nil]
  grouped := by
    obtain ⟨hfirst, hmore⟩ := List.forall_mem_cons.mp h.grouped
    exact List.forall_mem_singleton.mpr (TokenTree.grouped_branch hgroups hfirst hmore)

end Makes

/-- Whatever the rule reads is such, together with the tokens that it leaves. -/
def Ensures {α : Type} (x : Except Failure (WithRest α)) (good : α → List Token → Prop) : Prop :=
  ∀ a rest, x = .ok (a, rest) → good a rest

namespace Ensures

variable {α β : Type} {good : α → List Token → Prop} {ts : List Token}

theorem ok {a : α} (h : good a ts) : Ensures (.ok (a, ts)) good := by
  intro _ _ heq
  cases heq
  exact h

theorem fail {fault : Fault} : Ensures (fail ts fault) good := nofun

theorem unexpected : Ensures (unexpected ts) good := by
  cases ts <;> exact nofun

/-- What goes on after a result. -/
theorem bind {good' : β → List Token → Prop} {x : Except Failure (WithRest α)}
    {f : WithRest α → Except Failure (WithRest β)} (h : Ensures x good)
    (hf : ∀ a rest, good a rest → Ensures (f (a, rest)) good') : Ensures (x >>= f) good' := by
  intro b rest heq
  obtain ⟨⟨a, us⟩, hx, hb⟩ := bind_eq_ok.mp heq
  exact hf a us (h a us hx) b rest hb

end Ensures

/-- The level of the operator that the tokens start with. -/
def nextLevel? (ts : List Token) : Option Nat := ts.head?.bind fun t => Level.ofBinary? t.kind

/-- The node is an expression that is read at a level: its operator binds at least that tightly, and
the next operator binds more loosely and can come behind it. -/
def ReadsAt (level : Nat) (ts : List Token) (n : Node) (rest : List Token) : Prop :=
  ∃ tree, Makes ts rest [n] [tree] ∧ (∀ q, tree.level? = some q → level ≤ q) ∧
    ∀ p, nextLevel? rest = some p → p < level ∧ tree.Admits p

/-- The node is an operand: there is no operator between two parts of it, and the next operator can
come behind it. -/
def ReadsOperand (ts : List Token) (n : Node) (rest : List Token) : Prop :=
  ∃ tree, Makes ts rest [n] [tree] ∧ tree.kind ≠ .binaryExpression ∧
    ∀ p, nextLevel? rest = some p → tree.Admits p

/-- The node is no operation. -/
def ReadsPlain (ts : List Token) (n : Node) (rest : List Token) : Prop :=
  ∃ tree, Makes ts rest [n] [tree] ∧ tree.kind.isOperation = false

/-- The nodes are those of grouped trees. -/
def ReadsAll (ts : List Token) (ns : List Node) (rest : List Token) : Prop :=
  ∃ trees, Makes ts rest ns trees

/-- What the rules for expressions read, at a given depth. -/
structure GroupingRules (bound : Nat) : Prop where
  expressionAt : ∀ level ts, Ensures (expressionAt bound level ts) (ReadsAt level ts)
  operators : ∀ {level left tree whole ts}, Makes whole ts [left] [tree] →
    (∀ q, tree.level? = some q → level ≤ q) → (∀ p, nextLevel? ts = some p → tree.Admits p) →
    Ensures (operators bound level left ts) (ReadsAt level whole)
  unary : ∀ ts, Ensures (unary bound ts) (ReadsOperand ts)
  suffixes : ∀ {operand whole ts}, ReadsPlain whole operand ts →
    Ensures (suffixes bound operand ts) (ReadsPlain whole)
  arguments : ∀ ts, Ensures (arguments bound ts) (ReadsAll ts)
  assigned : ∀ ts, Ensures (assigned bound ts) (ReadsAll ts)
  primary : ∀ ts, Ensures (primary bound ts) (ReadsPlain ts)

/-- Without any depth nothing is parsed. -/
theorem groupingRules_zero : GroupingRules 0 where
  expressionAt _ _ := .fail
  operators _ _ _ := .fail
  unary _ := .fail
  suffixes _ := .fail
  arguments _ := .fail
  assigned _ := .fail
  primary _ := .fail

section

variable {bound : Nat} {ts : List Token}

/-- The left operand grows with each operator that is taken; the invariant is that it admits the
next one. -/
theorem operators_groups (rules : GroupingRules bound) {level : Nat} {left : Node}
    {tree : TokenTree} {whole : List Token} (hleft : Makes whole ts [left] [tree])
    (htight : ∀ q, tree.level? = some q → level ≤ q)
    (hadmits : ∀ p, nextLevel? ts = some p → tree.Admits p) :
    Ensures (operators (bound + 1) level left ts) (ReadsAt level whole) := by
  unfold operators
  split
  · exact .ok ⟨tree, hleft, htight, fun p hp => by cases hp⟩
  · next t after =>
    split
    · next hnone =>
      refine .ok ⟨tree, hleft, htight, fun p hp => ?_⟩
      cases hnone.symm.trans hp
    · next found hfound =>
      have hbehind := hadmits found hfound
      split
      · next hlt =>
        refine .ok ⟨tree, hleft, htight, fun p hp => ?_⟩
        cases hfound.symm.trans hp
        exact ⟨hlt, hbehind⟩
      · next hle =>
        refine .bind (rules.expressionAt _ after) ?_
        rintro right us ⟨rightTree, hright, hrightTight, hnext⟩
        have hop : Makes (t :: after) after [.leaf (operatorKind t.kind) t]
            [.leaf (operatorKind t.kind) t] := .leaf (isOperation_operatorKind t.kind)
        have hgroups :=
          TokenTree.groups_binary hfound (hleft.grouped tree List.mem_cons_self) hbehind
          hrightTight
        refine rules.operators ((hleft.cons (hop.cons hright)).branch hgroups) ?_ ?_
        · intro q hq
          cases hfound.symm.trans hq
          exact Nat.le_of_not_lt hle
        · intro p hp
          obtain ⟨hlt, hrightAdmits⟩ := hnext p hp
          exact TokenTree.admits_binary hfound hlt hrightAdmits

/-- An operand with operators before it stops where no tighter operator follows. -/
theorem unary_groups (rules : GroupingRules bound) (ts : List Token) :
    Ensures (unary (bound + 1) ts) (ReadsOperand ts) := by
  unfold unary
  split
  · exact .unexpected
  · next t after =>
    split
    · next level hlevel =>
      refine .bind (rules.expressionAt _ after) ?_
      rintro operand us ⟨tree, hoperand, htight, hnext⟩
      have hop : Makes (t :: after) after [.leaf (operatorKind t.kind) t]
          [.leaf (operatorKind t.kind) t] := .leaf (isOperation_operatorKind t.kind)
      have hgroups :=
        TokenTree.groups_unary hlevel (hoperand.grouped tree List.mem_cons_self) htight
      refine .ok ⟨_, (hop.cons hoperand).branch hgroups, nofun, fun p hp => ?_⟩
      obtain ⟨hlt, hadmits⟩ := hnext p hp
      exact TokenTree.admits_unary hlevel hlt hadmits
    · refine .bind (rules.primary (t :: after)) ?_
      intro operand us hoperand n rest hsuffixes
      obtain ⟨tree, hmakes, hplain⟩ := rules.suffixes hoperand n rest hsuffixes
      refine ⟨tree, hmakes, fun hkind => ?_, fun p _ => TokenTree.admits_of_kind hplain⟩
      rw [hkind] at hplain
      cases hplain

/-- A branch of a kind that is no operation. -/
theorem Makes.plain {rest : List Token} {kind : Kind} {n : Node} {ns : List Node} {tree : TokenTree}
    {trees : List TokenTree} (h : Makes ts rest (n :: ns) (tree :: trees))
    (hkind : kind.isOperation = false) :
    Makes ts rest [.branch kind n ns] [.branch kind tree trees] :=
  h.branch (TokenTree.groups_of_kind hkind)

/-- Calls and attribute accesses are operands without a level. -/
theorem suffixes_groups (rules : GroupingRules bound) {operand : Node} {whole : List Token}
    (hoperand : ReadsPlain whole operand ts) :
    Ensures (suffixes (bound + 1) operand ts) (ReadsPlain whole) := by
  unfold suffixes
  split
  · exact .ok hoperand
  · next t after =>
    obtain ⟨tree, hmakes, hplain⟩ := hoperand
    split
    · have hopen : Makes (t :: after) after [.leaf (.op .leftParen) t] [.leaf (.op .leftParen) t] :=
        .leaf rfl
      refine .bind (rules.arguments after) ?_
      rintro args us ⟨trees, hargs⟩
      have hlist : Makes (t :: after) us [.branch .argList (.leaf (.op .leftParen) t) args]
          [.branch .argList (.leaf (.op .leftParen) t) trees] := (hopen.cons hargs).plain rfl
      exact rules.suffixes ⟨_, (hmakes.cons hlist).plain rfl, rfl⟩
    split
    · have hdot : Makes (t :: after) after [.leaf (.op .dot) t] [.leaf (.op .dot) t] := .leaf rfl
      split
      · exact .fail
      · next name us =>
        split
        · have hname : Makes (name :: us) us [.leaf .propertyName name]
              [.leaf .propertyName name] :=
            .leaf rfl
          exact rules.suffixes ⟨_, (hmakes.cons (hdot.cons hname)).plain rfl, rfl⟩
        · exact .fail
    · exact .ok ⟨tree, hmakes, hplain⟩

theorem arguments_groups (rules : GroupingRules bound) (ts : List Token) :
    Ensures (arguments (bound + 1) ts) (ReadsAll ts) := by
  unfold arguments
  split
  · exact .unexpected
  · next t after =>
    split
    · exact .ok ⟨_, .leaf rfl⟩
    · refine .bind (rules.expressionAt _ (t :: after)) ?_
      rintro value us ⟨tree, hvalue, -⟩
      refine .bind (rules.assigned us) ?_
      rintro named vs ⟨trees, hnamed⟩
      have hfirst := hvalue.cons hnamed
      dsimp only
      split
      · exact .fail
      · next s after =>
        split
        · have hcomma : Makes (s :: after) after [.leaf (.op .comma) s] [.leaf (.op .comma) s] :=
            .leaf rfl
          refine .bind (rules.arguments after) ?_
          rintro more ws ⟨others, hmore⟩
          exact .ok ⟨_, hfirst.append (hcomma.cons hmore)⟩
        split
        · refine .bind (rules.arguments (s :: after)) ?_
          rintro more ws ⟨others, hmore⟩
          exact .ok ⟨_, hfirst.append hmore⟩
        · exact .fail

theorem assigned_groups (rules : GroupingRules bound) (ts : List Token) :
    Ensures (assigned (bound + 1) ts) (ReadsAll ts) := by
  unfold assigned
  split
  · exact .ok ⟨[], .nothing _⟩
  · next t after =>
    split
    · have hmark : Makes (t :: after) after [.leaf .assignOp t] [.leaf .assignOp t] := .leaf rfl
      refine .bind (rules.expressionAt _ after) ?_
      rintro value us ⟨tree, hvalue, -⟩
      exact .ok ⟨_, hmark.cons hvalue⟩
    · exact .ok ⟨[], .nothing _⟩

/-- So are literals, names and expressions in parentheses. -/
theorem primary_groups (rules : GroupingRules bound) (ts : List Token) :
    Ensures (primary (bound + 1) ts) (ReadsPlain ts) := by
  unfold primary
  split
  · exact .unexpected
  · next t after =>
    split
    · next kind hkind =>
      have hplain := isOperation_of_operandKind? hkind
      exact .ok ⟨_, .leaf hplain, hplain⟩
    split
    · have hopen : Makes (t :: after) after [.leaf (.op .leftParen) t] [.leaf (.op .leftParen) t] :=
        .leaf rfl
      refine .bind (rules.expressionAt _ after) ?_
      rintro inner us ⟨tree, hinner, -⟩
      dsimp only
      split
      · exact .fail
      · next close rest =>
        split
        · have hclose : Makes (close :: rest) rest [.leaf (.op .rightParen) close]
              [.leaf (.op .rightParen) close] := .leaf rfl
          exact .ok ⟨_, (hopen.cons (hinner.cons hclose)).plain rfl, rfl⟩
        · exact .fail
    · exact .unexpected

end

/-- All rules for expressions, by induction on the depth. -/
theorem groupingRules (bound : Nat) : GroupingRules bound := by
  induction bound with
  | zero => exact groupingRules_zero
  | succ bound ih =>
    refine ⟨fun level ts => ?_, operators_groups ih, unary_groups ih, suffixes_groups ih,
      arguments_groups ih, assigned_groups ih, primary_groups ih⟩
    unfold SyntaxTree.expressionAt
    refine .bind (ih.unary ts) ?_
    rintro left us ⟨tree, hleft, hkind, hadmits⟩
    refine ih.operators hleft (fun q hq => ?_) hadmits
    cases (TokenTree.level?_of_kind hkind).symm.trans hq

/-- **Operators are grouped by their levels.** The tokens of an expression make up a tree with the
node of the expression. In it the left operand of a binary operator has no looser operator at its
root, and none at all before a power; the right operand has a tighter one, or a power behind a
power; the operators before operands on the right edge of the left operand do not reach beyond it;
and below `not` there is a comparison or a tighter operator, below a sign nothing but a power. -/
theorem grouped_of_expression {ts rest : List Token} {n : Node}
    (h : expression ts = .ok (n, rest)) :
    ∃ tree : TokenTree, tree.node = n ∧ ts = tree.tokens ++ rest ∧ tree.Grouped := by
  obtain ⟨tree, hmakes, -⟩ := (groupingRules _).expressionAt Level.or ts n rest h
  refine ⟨tree, (List.cons.inj hmakes.nodes).1, ?_, hmakes.grouped tree List.mem_cons_self⟩
  have htokens := hmakes.tokens
  rwa [TokenTree.tokensAll, TokenTree.tokensAll, List.append_nil] at htokens

/-- The tokens of `not -a ** b < c`: a sign before a power, in a comparison that is negated. -/
def signedTokens : List Token :=
  [⟨.keyword .not, "not", 0, 3⟩, ⟨.op .minus, "-", 4, 5⟩, ⟨.ident, "a", 5, 6⟩,
    ⟨.op .power, "**", 7, 9⟩,
    ⟨.ident, "b", 10, 11⟩, ⟨.op .less, "<", 12, 13⟩, ⟨.ident, "c", 14, 15⟩]

/-- The minus sign binds more loosely than the power behind it, and `not` more loosely still. -/
theorem grouped_of_expression_signedTokens :
    ∃ n, expression signedTokens = .ok (n, []) ∧ n.children.map Node.kind =
        [.keyword .not, .binaryExpression] ∧
      ∃ tree : TokenTree, tree.node = n ∧ signedTokens = tree.tokens ++ [] ∧ tree.Grouped :=
  ⟨_, rfl, rfl, grouped_of_expression rfl⟩

end WatCompiler.SyntaxTree
