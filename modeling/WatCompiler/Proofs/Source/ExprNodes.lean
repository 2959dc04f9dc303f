import WatCompiler.Program.OfTree
import WatCompiler.Proofs.Source.Words

/-!
# Nodes of written expressions

What the node of an expression looks like: its kind, and the text of one that is a single word. From
such a node the expression is read again, with new positions (`ReadsAs`). There is one lemma for
every sort of expression, which builds its node from those of its parts.
-/

namespace WatCompiler

open SyntaxTree

@[simp] theorem SyntaxTree.Node.leaf_kind (kind : Kind) (t : Token) :
    (leaf kind t).kind = kind := rfl

namespace Source

variable {source : Text} {t : Token} {ts : List Token}

/-! ## Tokens as written -/

/-- The token is of the sort of the lexeme, and it stands where the source has this spelling. -/
structure Lexeme.ReadAs (source : Text) (x : Lexeme) (t : Token) : Prop where
  kind : t.kind = x.kind
  text : isLayout x.kind = false → source.slice t.start t.stop = x.text

/-- The tokens are read from a source that has the lexemes in a row. -/
abbrev Written (source : Text) (xs : List Lexeme) (ts : List Token) : Prop :=
  List.Forall₂ (Lexeme.ReadAs source) xs ts

/-- Tokens in a row, one part after the other. -/
theorem Written.append {xs ys : List Lexeme} (h : Written source (xs ++ ys) ts) :
    ∃ us vs, ts = us ++ vs ∧ Written source xs us ∧ Written source ys vs := by
  induction xs generalizing ts with
  | nil => exact ⟨[], ts, rfl, .nil, h⟩
  | cons x xs ih =>
    obtain ⟨t, ts', ht, hts', rfl⟩ := List.forall₂_cons_left_iff.mp h
    obtain ⟨us, vs, rfl, hus, hvs⟩ := ih hts'
    exact ⟨t :: us, vs, rfl, .cons ht hus, hvs⟩

/-- One word is written as one token. -/
theorem Written.singleton {x : Lexeme} (h : Written source [x] ts) :
    ∃ t, ts = [t] ∧ x.ReadAs source t := by
  obtain ⟨t, ts', ht, hts', rfl⟩ := List.forall₂_cons_left_iff.mp h
  cases List.forall₂_nil_left_iff.mp hts'
  exact ⟨t, rfl, ht⟩

end Source

open Source

/-! ## The kinds of nodes -/

/-- The kind of the node of a literal. -/
def Literal.nodeKind : Literal → Kind
  | .none => .none
  | .true | .false => .boolean
  | .number value | .other _ value => if value < 0 then .unaryExpression else .number

/-- The kind of the node of an expression. -/
def Expr.nodeKind {α : Type} : Expr α → Kind
  | .literal _ value => value.nodeKind
  | .ident _ _ => .variableName
  | .unary _ _ _ => .unaryExpression
  | .binary _ _ _ _ => .binaryExpression
  | .paren _ _ => .parenthesizedExpression
  | .call _ _ _ => .callExpression

/-- The spelling of an expression that is a single word. -/
def Expr.word? {α : Type} : Expr α → Option Text
  | .literal _ (.number value) | .literal _ (.other _ value) =>
    if value < 0 then none else some (Text.ofNat value.toInt.natAbs)
  | .ident _ name => some name
  | _ => none

/-- An expression that is written as a numeral is a number without a sign. -/
theorem Expr.word?_of_nodeKind {α : Type} {e : Expr α} (h : e.nodeKind = .number) :
    ∃ value : Int32, 0 ≤ value ∧ e.word? = some (Text.ofNat value.toInt.natAbs) := by
  cases e with
  | literal info value =>
    cases value with
    | number value | other _ value =>
      rw [nodeKind, Literal.nodeKind] at h
      split at h
      · cases h
      · next hneg => exact ⟨value, Int32.not_lt.mp hneg, if_neg hneg⟩
    | none | true | false => cases h
  | ident | unary | binary | paren | call => cases h

/-- The node of an expression is no punctuation and no body. -/
theorem Expr.nodeKind_ne {α : Type} (e : Expr α) :
    e.nodeKind ≠ .body ∧ ∀ spelling, e.nodeKind ≠ .lexeme spelling := by
  cases e with
  | literal _ value =>
    cases value <;> simp only [nodeKind, Literal.nodeKind] <;> (try split) <;> exact ⟨nofun, nofun⟩
  | ident | unary | binary | paren | call => exact ⟨nofun, nofun⟩

namespace Source

open Program.Reading (textOf infoOf isLeastMagnitude)

/-- The node is one of the expression, and it is read as the expression with other positions. -/
structure ReadsAs (source : Text) (e : Expr Unit) (n : Node) : Prop where
  kind : n.kind = e.nodeKind
  word : ∀ t ∈ e.word?, textOf (.ofText source) n = t
  expr : ∃ e', Program.Reading.expr (.ofText source) n = .ok e' ∧ e'.unplaced = e.unplaced

/-! ## Words as operands -/

theorem ofInt_of_nonneg {v : Int32} (h : 0 ≤ v) :
    Text.ofInt v.toInt = Text.ofNat v.toInt.natAbs := by
  rw [Int32.le_iff_toInt_le] at h
  exact if_neg (Int.not_lt.mpr h)

/-- A token that is an operand of its own, and the kind of its leaf. -/
structure IsOperand (t : Token) (kind : Kind) : Prop where
  notPrefixed : Level.ofUnary? t.kind = none
  kind : operandKind? t.kind = some kind

/-- The one token of a literal that a variable can start with is read as the literal. -/
theorem literal_leaf {value : Literal} (hvalue : value.isInitial = true)
    (h : Written source value.lexemes ts) :
    ∃ t, ts = [t] ∧ IsOperand t value.nodeKind ∧
      Program.Reading.literal (.ofText source) (.leaf value.nodeKind t) = .ok value ∧
      ∀ info, ReadsAs source (.literal info value) (.leaf value.nodeKind t) := by
  cases value with
  | none =>
    obtain ⟨t, rfl, ht⟩ := Written.singleton h
    exact ⟨t, rfl, ⟨by rw [ht.kind]; rfl, by rw [ht.kind]; rfl⟩, rfl,
      fun _ => ⟨rfl, nofun, _, rfl, rfl⟩⟩
  | true =>
    obtain ⟨t, rfl, ht⟩ := Written.singleton h
    have hliteral : Program.Reading.literal (.ofText source) (.leaf .boolean t) = .ok .true :=
      if_pos (ht.text rfl)
    refine ⟨t, rfl, ⟨by rw [ht.kind]; rfl, by rw [ht.kind]; rfl⟩, hliteral, fun _ => ?_⟩
    exact ⟨rfl, nofun, _, congrArg (· >>= _) hliteral, rfl⟩
  | false =>
    obtain ⟨t, rfl, ht⟩ := Written.singleton h
    have hliteral : Program.Reading.literal (.ofText source) (.leaf .boolean t) = .ok .false :=
      if_neg fun h => absurd ((ht.text rfl).symm.trans h) (by decide)
    refine ⟨t, rfl, ⟨by rw [ht.kind]; rfl, by rw [ht.kind]; rfl⟩, hliteral, fun _ => ?_⟩
    exact ⟨rfl, nofun, _, congrArg (· >>= _) hliteral, rfl⟩
  | number v =>
    have hv : 0 ≤ v := of_decide_eq_true hvalue
    have hneg : ¬ v < 0 := Int32.not_lt.mpr hv
    rw [Literal.lexemes, if_neg hneg] at h
    obtain ⟨t, rfl, ht⟩ := Written.singleton h
    have hkind : (Literal.number v).nodeKind = .number := if_neg hneg
    have htext : textOf (.ofText source) (.leaf .number t) = Text.ofNat v.toInt.natAbs :=
      ht.text rfl
    have hliteral : Program.Reading.literal (.ofText source) (.leaf .number t) =
        .ok (.number v) := by
      have hread := Text.readInt32_ofInt v
      rw [ofInt_of_nonneg hv, ← htext] at hread
      unfold Program.Reading.literal
      dsimp only [Node.leaf] at hread ⊢
      rw [hread]
    rw [hkind]
    refine ⟨t, rfl, ⟨by rw [ht.kind]; rfl, by rw [ht.kind]; rfl⟩, hliteral, fun _ => ?_⟩
    refine ⟨hkind.symm, fun w hw => ?_, _, congrArg (· >>= _) hliteral, rfl⟩
    rw [Expr.word?, if_neg hneg] at hw
    cases Option.mem_some.mp hw
    exact htext
  | other => cases hvalue

/-! ## Nodes as expressions -/

variable {n : Node} {e lhs rhs : Expr Unit}

/-- What the grammar and the reader make of a unary operator's lexeme. -/
theorem unary_lexeme {op : UnaryOp} (hop : op ∈ UnaryOp.all) :
    Level.ofUnary? op.lexeme.kind = some op.level ∧
      UnaryOp.ofSymbol? op.lexeme.text = some op ∧ isLayout op.lexeme.kind = false := by
  have hall : ∀ op ∈ UnaryOp.all, Level.ofUnary? op.lexeme.kind = some op.level ∧
      UnaryOp.ofSymbol? op.lexeme.text = some op ∧ isLayout op.lexeme.kind = false := by
    decide +kernel
  exact hall op hop

/-- What the grammar and the reader make of a binary operator's lexeme. -/
theorem binary_lexeme {op : BinaryOp} (hop : op ∈ BinaryOp.all) :
    Level.ofBinary? op.lexeme.kind = some op.level ∧
      Level.rightOf op.lexeme.kind op.level = op.level + 1 ∧
      BinaryOp.ofSymbol? op.lexeme.text = some op ∧ isLayout op.lexeme.kind = false := by
  have hall : ∀ op ∈ BinaryOp.all, Level.ofBinary? op.lexeme.kind = some op.level ∧
      Level.rightOf op.lexeme.kind op.level = op.level + 1 ∧
      BinaryOp.ofSymbol? op.lexeme.text = some op ∧ isLayout op.lexeme.kind = false := by
    decide +kernel
  exact hall op hop

/-- Digits behind a minus sign, up to the magnitude of the least number. -/
theorem readInt32_neg {n : Nat} (hn : n ≤ Text.leastMagnitude) :
    Text.readInt32 (Text.byte '-' :: Text.ofNat n) = .ok (Int32.ofInt (-n)) := by
  have hlimit : n < Text.magnitudeLimit := Nat.lt_of_le_of_lt hn (by decide)
  rw [Text.readInt32, if_pos rfl, Text.readDigits_ofNat hlimit]
  exact if_pos hn

/-- No other numeral than that of the least number becomes the least number by a minus sign. -/
theorem isLeastMagnitude_eq_false (h : ReadsAs source e n) :
    isLeastMagnitude (.ofText source) n = false := by
  refine decide_eq_false fun ⟨hkind, hleast⟩ => ?_
  obtain ⟨v, hv, hword⟩ := Expr.word?_of_nodeKind (h.kind.symm.trans hkind)
  rw [h.word _ hword] at hleast
  change (Text.readInt32 (Text.byte '-' :: Text.ofNat v.toInt.natAbs)).toOption = _ at hleast
  have hlow : 0 ≤ v.toInt := Int32.le_iff_toInt_le.mp hv
  have hhigh := v.toInt_lt
  have hmagnitude : v.toInt.natAbs ≤ Text.leastMagnitude := by
    show v.toInt.natAbs ≤ 2147483648
    omega
  rw [readInt32_neg hmagnitude] at hleast
  have hvalue := congrArg Int32.toInt (Option.some.inj hleast)
  rw [Int32.toInt_ofInt_of_le (by omega) (by omega)] at hvalue
  change _ = -2147483648 at hvalue
  omega

/-- An operator's leaf and a node that is read already. -/
theorem readsAs_unary {op : UnaryOp} (hop : op ∈ UnaryOp.all) (info : Info Unit)
    (ht : op.lexeme.ReadAs source t) (h : ReadsAs source e n) :
    ReadsAs source (.unary info op e)
      (.branch .unaryExpression (.leaf (operatorKind t.kind) t) [n]) := by
  obtain ⟨e', he', hunplaced⟩ := h.expr
  obtain ⟨-, hsymbol, hlayout⟩ := unary_lexeme hop
  have htext : textOf (.ofText source) (.leaf (operatorKind t.kind) t) = op.lexeme.text :=
    ht.text hlayout
  refine ⟨rfl, nofun, .unary (infoOf (.ofText source) (.leaf .arithOp t)) op e', ?_,
    congrArg (Expr.unary ⟨(), .unknown⟩ op) hunplaced⟩
  rw [Node.branch, Program.Reading.expr]
  dsimp only
  rw [htext, hsymbol]
  dsimp only
  rw [isLeastMagnitude_eq_false h, if_neg (fun h => Bool.false_ne_true h.2), he']
  rfl

/-- A minus sign before the magnitude of the least number. -/
theorem readsAs_minValue {minus digits : Token} (info : Info Unit)
    (hminus : (Lexeme.sign .minus).ReadAs source minus)
    (hdigits : (Lexeme.numeral Int32.minValue.toInt.natAbs).ReadAs source digits) :
    ReadsAs source (.literal info (.number Int32.minValue))
      (.branch .unaryExpression (.leaf (operatorKind minus.kind) minus)
        [.leaf .number digits]) := by
  have hleast : isLeastMagnitude (.ofText source) (.leaf .number digits) = true := by
    refine decide_eq_true ⟨rfl, ?_⟩
    rw [show textOf (.ofText source) (.leaf .number digits) = _ from hdigits.text rfl]
    change (Text.readInt32 (Text.byte '-' :: Text.ofNat Int32.minValue.toInt.natAbs)).toOption = _
    rw [readInt32_neg (by decide)]
    decide
  have hsymbol : UnaryOp.ofSymbol?
      (textOf (.ofText source) (.leaf (operatorKind minus.kind) minus)) =
      some .negate := by
    rw [show textOf (.ofText source) (.leaf (operatorKind minus.kind) minus) = _ from
      hminus.text rfl]
    decide
  refine ⟨rfl, nofun, .literal (infoOf (.ofText source) (.leaf .arithOp minus)) _, ?_, rfl⟩
  rw [Node.branch, Program.Reading.expr]
  dsimp only
  rw [hsymbol]
  dsimp only
  rw [hleast, if_pos ⟨rfl, rfl⟩]
  rfl

/-- An operator's leaf between two nodes that are read already. -/
theorem readsAs_binary {op : BinaryOp} (hop : op ∈ BinaryOp.all) (info : Info Unit)
    {left right : Node} (ht : op.lexeme.ReadAs source t) (hlhs : ReadsAs source lhs left)
    (hrhs : ReadsAs source rhs right) :
    ReadsAs source (.binary info op lhs rhs)
      (.branch .binaryExpression left [.leaf (operatorKind t.kind) t, right]) := by
  obtain ⟨lhs', hlhs', hunplaced⟩ := hlhs.expr
  obtain ⟨rhs', hrhs', hunplaced'⟩ := hrhs.expr
  obtain ⟨-, -, hsymbol, hlayout⟩ := binary_lexeme hop
  have htext : textOf (.ofText source) (.leaf (operatorKind t.kind) t) = op.lexeme.text :=
    ht.text hlayout
  refine ⟨rfl, nofun, .binary (infoOf (.ofText source) left) op lhs' rhs', ?_,
    congrArg₂ (Expr.binary ⟨(), .unknown⟩ op) hunplaced hunplaced'⟩
  rw [Node.branch, Program.Reading.expr]
  dsimp only
  rw [hlhs', htext, hsymbol]
  dsimp only [bind, Except.bind]
  rw [hrhs']
  rfl

theorem readsAs_paren (info : Info Unit) (t close : Token) (h : ReadsAs source e n) :
    ReadsAs source (.paren info e) (.branch .parenthesizedExpression (.leaf (.op .leftParen) t)
      [n, .leaf (.op .rightParen) close]) := by
  obtain ⟨e', he', hunplaced⟩ := h.expr
  refine ⟨rfl, nofun, .paren (infoOf (.ofText source) (.leaf .arithOp t)) e', ?_,
    congrArg (Expr.paren ⟨(), .unknown⟩) hunplaced⟩
  rw [Node.branch, Program.Reading.expr]
  dsimp only
  rw [if_neg (fun h => h rfl), he']
  rfl

/-- The nodes of the arguments of a call, the closing parenthesis included. -/
inductive ArgumentsRead (source : Text) : List (Expr Unit) → List Node → Prop
  | none (close : Token) : ArgumentsRead source [] [.leaf (.op .rightParen) close]
  | last {arg : Expr Unit} {n : Node} (h : ReadsAs source arg n) (close : Token) :
      ArgumentsRead source [arg] [n, .leaf (.op .rightParen) close]
  | more {arg : Expr Unit} {n : Node} {args : List (Expr Unit)} {ns : List Node}
      (h : ReadsAs source arg n) (comma : Token) (hne : args ≠ [])
      (rest : ArgumentsRead source args ns) :
      ArgumentsRead source (arg :: args) (n :: .leaf (.op .comma) comma :: ns)

/-- No expression is read from a punctuation mark. -/
theorem ReadsAs.kind_ne (h : ReadsAs source e n) (o : Operator) : n.kind ≠ .op o := by
  rw [h.kind]
  exact e.nodeKind_ne.2 o.text

theorem ArgumentsRead.head {args : List (Expr Unit)} {ns : List Node}
    (h : ArgumentsRead source args ns) (hne : args ≠ []) :
    ∃ first others, ns = first :: others ∧ first.kind ≠ .op .rightParen := by
  cases h with
  | none => exact absurd rfl hne
  | last h | more h => exact ⟨_, _, rfl, h.kind_ne .rightParen⟩

/-- Nodes of arguments are read as arguments, up to the parenthesis. -/
theorem ArgumentsRead.arguments {args : List (Expr Unit)} {ns : List Node}
    (h : ArgumentsRead source args ns) (hne : args ≠ []) (list : Node) :
    ∃ args', Program.Reading.arguments (.ofText source) list ns = .ok args' ∧
      Expr.allUnplaced args' = Expr.allUnplaced args := by
  induction h with
  | none => exact absurd rfl hne
  | @last arg n h close =>
    obtain ⟨arg', harg', hunplaced⟩ := h.expr
    refine ⟨[arg'], ?_, congrArg (fun e => [e]) hunplaced⟩
    rw [Program.Reading.arguments, harg']
    rfl
  | @more arg n args ns h comma hne' rest ih =>
    obtain ⟨arg', harg', hunplaced⟩ := h.expr
    obtain ⟨args', hargs', hunplaced'⟩ := ih hne'
    obtain ⟨first, others, rfl, hfirst⟩ := rest.head hne'
    refine ⟨arg' :: args', ?_, congrArg₂ List.cons hunplaced hunplaced'⟩
    rw [Program.Reading.arguments, harg']
    dsimp only [bind, Except.bind]
    rw [Node.leaf_kind, if_neg (by decide), if_pos rfl, if_neg (by simpa using hfirst), hargs']
    rfl

/-- A name and a list of arguments are read as a call. -/
theorem readsAs_call {args : List (Expr Unit)} {ns : List Node} {name : Text} (info : Info Unit)
    (ht : (Lexeme.name name).ReadAs source t) (paren : Token)
    (h : ArgumentsRead source args ns) :
    ReadsAs source (.call info name args) (.branch .callExpression (.leaf .variableName t)
      [.branch .argList (.leaf (.op .leftParen) paren) ns]) := by
  have hlist : ∃ args', Program.Reading.argumentList (.ofText source)
      (.branch .argList (.leaf (.op .leftParen) paren) ns) = .ok args' ∧
      Expr.allUnplaced args' = Expr.allUnplaced args := by
    by_cases hne : args = []
    · subst hne
      cases h
      refine ⟨[], ?_, rfl⟩
      rw [Node.branch, Program.Reading.argumentList, if_neg (fun h => h rfl), Node.leaf_kind,
        if_pos rfl]
      rfl
    · obtain ⟨first, others, rfl, hfirst⟩ := h.head hne
      rw [Node.branch, Program.Reading.argumentList, if_neg (fun h => h rfl), if_neg hfirst]
      exact h.arguments hne _
  obtain ⟨args', hargs', hunplaced⟩ := hlist
  have htext : textOf (.ofText source) (.leaf .variableName t) = name := ht.text rfl
  refine ⟨rfl, nofun, .call (infoOf (.ofText source) (.leaf .variableName t)) name args', ?_,
    congrArg (Expr.call ⟨(), .unknown⟩ name) hunplaced⟩
  rw [Node.branch, Program.Reading.expr]
  rw [if_neg (fun h => h rfl), if_neg (fun h => h rfl), hargs', htext]
  rfl

end Source

end WatCompiler
