import WatCompiler.Proofs.Source.ExprNodes

/-!
# Reading written expressions

The tokens of an expression in source form are read by the grammar as one node, and that node is
read as the expression again, with new positions (`climbs`). The grammar climbs: after an operand it
takes on operators as long as they bind tightly enough. So the statement says where it stands when
the tokens of the expression are used up: at the operators after the node of the expression, with a
bound on the depth that has gone down by one for every left operand in a row.

Whether the operators after an expression leave it alone is a matter of its right edge
(`Expr.edge`): an operator goes on with the last operand if it binds at least as tightly as the
edge.
-/

namespace WatCompiler

open SyntaxTree
open Source

/-! ## The right edge of an expression -/

/-- An operator after the expression that binds looser than this leaves the expression whole. -/
def Expr.edge {α : Type} : Expr α → Nat
  | .binary _ op _ _ => op.level + 1
  | e => e.level

/-- The number of operands in a row from the left that the grammar meets on the way to the whole
expression. -/
def Expr.spine {α : Type} : Expr α → Nat
  | .binary _ _ lhs _ => lhs.spine + 1
  | _ => 1

theorem BinaryOp.level_lt (op : BinaryOp) : Level.not < op.level ∧ op.level < Level.unary := by
  unfold level
  split <;> decide

theorem Literal.unary_le_level {α : Type} (info : Info α) (value : Literal) :
    Level.unary ≤ (Expr.literal info value).level := by
  cases value with
  | number value =>
    simp only [Expr.level]
    split <;> decide
  | none | true | false | other => exact Nat.le_add_right 11 2

/-- The right edge of an expression binds at least as tightly as the whole. -/
theorem Expr.level_le_edge {α : Type} (e : Expr α) : e.level ≤ e.edge := by
  cases e with
  | binary => exact Nat.le_succ _
  | literal | ident | unary | paren | call => exact Nat.le_refl _

theorem Expr.or_le_level {α : Type} (e : Expr α) : Level.or ≤ e.level := by
  cases e with
  | binary _ op => exact Nat.le_trans (by decide) (Nat.le_of_lt op.level_lt.1)
  | literal info value => exact Nat.le_trans (by decide) (value.unary_le_level info)
  | unary _ op => cases op <;> exact Nat.le_add_left 1 _
  | ident | paren | call => exact Nat.le_add_left 1 12

/-- A left operand is whole before its operator. -/
theorem Expr.lt_edge {α : Type} {op : BinaryOp} {e : Expr α} (h : op.level ≤ e.level) :
    op.level < e.edge := by
  obtain ⟨hlow, hhigh⟩ := op.level_lt
  cases e with
  | binary => exact Nat.lt_succ_of_le h
  | literal info value => exact Nat.lt_of_lt_of_le hhigh (value.unary_le_level info)
  | unary _ op' =>
    cases op' with
    | not => exact absurd h (Nat.not_le.mpr hlow)
    | negate | plus | other => exact hhigh
  | ident | paren | call => exact Nat.lt_trans hhigh (show Level.unary < Level.operand by decide)

/-- An expression has no more operands in a row than lexemes. -/
theorem Expr.spine_le {α : Type} (e : Expr α) : e.spine ≤ e.lexemes.length := by
  match e with
  | .binary _ _ lhs _ =>
    have := lhs.spine_le
    simp only [spine, lexemes, List.length_append, List.length_cons]
    omega
  | .literal _ value => exact List.length_pos_of_ne_nil value.lexemes_ne_nil
  | .ident _ _ | .unary _ _ _ | .paren _ _ | .call _ _ _ =>
    simp only [spine, lexemes, List.length_append, List.length_cons]
    omega

namespace Source

variable {source : Text} {t : Token} {ts rest : List Token} {bound level : Nat} {n : Node}
  {e : Expr Unit}

/-! ## Steps of the grammar -/

/-- The next token does not go on with an expression whose right edge is `edge`. -/
def Closes (edge : Nat) (rest : List Token) : Prop :=
  ∀ t ∈ rest.head?, t.kind ≠ .op .leftParen ∧ t.kind ≠ .op .dot ∧
    ∀ found, Level.ofBinary? t.kind = some found → found < edge

theorem Closes.mono {edge edge' : Nat} (h : Closes edge rest) (hle : edge ≤ edge') :
    Closes edge' rest := fun t ht =>
  ⟨(h t ht).1, (h t ht).2.1, fun found hfound =>
    Nat.lt_of_lt_of_le ((h t ht).2.2 found hfound) hle⟩

theorem closes_of_kind {kind : Token.Kind} (ht : t.kind = kind)
    (hkind : kind ≠ .op .leftParen ∧ kind ≠ .op .dot ∧ Level.ofBinary? kind = none) {edge : Nat} :
    Closes edge (t :: rest) := by
  intro u hu
  cases Option.mem_some.mp hu
  rw [ht, hkind.2.2]
  exact ⟨hkind.1, hkind.2.1, nofun⟩

/-- No operator follows that belongs to the operand. -/
theorem operators_of_closes (h : Closes level rest) (n : Node) :
    operators (bound + 1) level n rest = .ok (n, rest) := by
  rw [operators.eq_def]
  cases rest with
  | nil => rfl
  | cons t rest =>
    dsimp only
    split
    · rfl
    · next found hfound => rw [if_pos ((h t rfl).2.2 found hfound)]

theorem suffixes_of_closes {edge : Nat} (h : Closes edge rest) (n : Node) :
    suffixes (bound + 1) n rest = .ok (n, rest) := by
  rw [suffixes.eq_def]
  cases rest with
  | nil => rfl
  | cons t rest =>
    dsimp only
    rw [if_neg (h t rfl).1, if_neg (h t rfl).2.1]

theorem expressionAt_of_unary {n : Node} (h : unary bound ts = .ok (n, rest)) :
    expressionAt (bound + 1) level ts = operators bound level n rest := by
  rw [expressionAt, h]
  rfl

/-- Without an operator ahead, an operand starts with a primary. -/
theorem unary_of_primary (ht : Level.ofUnary? t.kind = none) {n : Node} {after : List Token}
    (h : primary bound (t :: ts) = .ok (n, after)) :
    unary (bound + 1) (t :: ts) = suffixes bound n after := by
  rw [unary]
  dsimp only
  rw [ht]
  dsimp only
  rw [h]
  rfl

/-- A name, a numeral or a word is an operand by itself. -/
theorem primary_operand {kind : Kind} (ht : IsOperand t kind) :
    primary (bound + 1) (t :: ts) = .ok (.leaf kind t, ts) := by
  rw [primary]
  dsimp only
  rw [ht.kind]

/-- An operand of one token. -/
theorem expressionAt_operand {edge : Nat} {kind : Kind} (ht : IsOperand t kind)
    (hrest : Closes edge rest) :
    expressionAt (bound + 3) level (t :: rest) =
      operators (bound + 2) level (.leaf kind t) rest := by
  refine expressionAt_of_unary ?_
  rw [unary_of_primary ht.notPrefixed (primary_operand ht)]
  exact suffixes_of_closes hrest _

/-- An operator before its operand. -/
theorem expressionAt_prefixed {found : Nat} {n : Node} (ht : Level.ofUnary? t.kind = some found)
    (h : expressionAt bound found ts = .ok (n, rest)) :
    expressionAt (bound + 2) level (t :: ts) =
      operators (bound + 1) level
        (.branch .unaryExpression (.leaf (operatorKind t.kind) t) [n]) rest := by
  refine expressionAt_of_unary ?_
  rw [unary]
  dsimp only
  rw [ht]
  dsimp only
  rw [h]
  rfl

/-- An expression in parentheses. -/
theorem expressionAt_paren {edge : Nat} {n : Node} {close : Token} (ht : t.kind = .op .leftParen)
    (hclose : close.kind = .op .rightParen)
    (h : expressionAt (bound + 1) Level.or ts = .ok (n, close :: rest))
    (hrest : Closes edge rest) :
    expressionAt (bound + 4) level (t :: ts) =
      operators (bound + 3) level (.branch .parenthesizedExpression (.leaf (.op .leftParen) t)
        [n, .leaf (.op .rightParen) close]) rest := by
  have hprimary : primary (bound + 2) (t :: ts) = .ok (.branch .parenthesizedExpression
      (.leaf (.op .leftParen) t) [n, .leaf (.op .rightParen) close], rest) := by
    rw [primary]
    dsimp only
    rw [ht]
    dsimp only [operandKind?]
    rw [if_pos rfl, h]
    show (if close.kind = .op .rightParen then _ else _) = _
    rw [if_pos hclose]
    rfl
  refine expressionAt_of_unary ?_
  rw [unary_of_primary (by rw [ht]; rfl) hprimary]
  exact suffixes_of_closes hrest _

/-- A call. -/
theorem expressionAt_call {edge : Nat} {ns : List Node} {open_ : Token} (ht : t.kind = .ident)
    (hopen : open_.kind = .op .leftParen) (h : arguments (bound + 1) ts = .ok (ns, rest))
    (hrest : Closes edge rest) :
    expressionAt (bound + 4) level (t :: open_ :: ts) =
      operators (bound + 3) level (.branch .callExpression (.leaf .variableName t)
        [.branch .argList (.leaf (.op .leftParen) open_) ns]) rest := by
  have hoperand : IsOperand t .variableName := ⟨by rw [ht]; rfl, by rw [ht]; rfl⟩
  refine expressionAt_of_unary ?_
  rw [unary_of_primary hoperand.notPrefixed (primary_operand hoperand),
    suffixes.eq_def]
  dsimp only
  rw [if_pos hopen, h]
  exact suffixes_of_closes hrest _

/-- An operator after its left operand. -/
theorem operators_binary {found : Nat} {left right : Node}
    (ht : Level.ofBinary? t.kind = some found) (hlevel : level ≤ found)
    (h : expressionAt bound (Level.rightOf t.kind found) ts = .ok (right, rest)) :
    operators (bound + 1) level left (t :: ts) =
      operators bound level
        (.branch .binaryExpression left [.leaf (operatorKind t.kind) t, right]) rest := by
  conv => lhs; rw [operators]
  dsimp only
  rw [ht]
  dsimp only
  rw [if_neg (Nat.not_lt.mpr hlevel), h]
  rfl

theorem assigned_of_ne (h : ∀ t ∈ rest.head?, t.kind ≠ .op .assign) :
    assigned (bound + 1) rest = .ok ([], rest) := by
  rw [assigned.eq_def]
  cases rest with
  | nil => rfl
  | cons t rest => exact if_neg (h t rfl)

/-- The closing parenthesis of a call. -/
theorem arguments_close (ht : t.kind = .op .rightParen) :
    arguments (bound + 1) (t :: rest) = .ok ([.leaf (.op .rightParen) t], rest) := by
  rw [arguments]
  exact if_pos ht

/-- An argument and what separates it from the others. -/
theorem arguments_argument {value : Node} {s : Token} {after : List Token}
    (ht : t.kind ≠ .op .rightParen)
    (h : expressionAt (bound + 1) Level.or (t :: ts) = .ok (value, s :: after))
    (hs : s.kind ≠ .op .assign) :
    arguments (bound + 2) (t :: ts) =
      if s.kind = .op .comma then do
        let (more, ts) ← arguments (bound + 1) after
        pure (value :: .leaf (.op .comma) s :: more, ts)
      else if s.kind = .op .rightParen then do
        let (more, ts) ← arguments (bound + 1) (s :: after)
        pure (value :: more, ts)
      else fail (s :: after) .argumentSeparatorExpected := by
  have hassigned : assigned (bound + 1) (s :: after) = .ok ([], s :: after) := by
    refine assigned_of_ne fun u hu => ?_
    cases Option.mem_some.mp hu
    exact hs
  rw [arguments.eq_def]
  dsimp only
  rw [if_neg ht, h]
  dsimp only [bind, Except.bind]
  rw [hassigned]
  rfl

/-! ## Climbing -/

/-- The grammar takes in the tokens of an expression and goes on with the operators after it. -/
def Climbs (source : Text) (e : Expr Unit) (ts : List Token) : Prop :=
  ∃ n, ReadsAs source e n ∧ ∀ {bound level : Nat} {rest : List Token}, 6 * ts.length ≤ bound →
    level ≤ e.level → Closes e.edge rest →
    expressionAt bound level (ts ++ rest) = operators (bound - e.spine) level n rest

/-- An expression is whole when nothing after it goes on with it. -/
theorem Climbs.whole (h : Climbs source e ts) (hts : Written source e.lexemes ts) :
    ∃ n, ReadsAs source e n ∧ ∀ {bound level : Nat} {rest : List Token}, 6 * ts.length ≤ bound →
      level ≤ e.level → Closes level rest →
      expressionAt bound level (ts ++ rest) = .ok (n, rest) := by
  obtain ⟨n, hn, hclimb⟩ := h
  refine ⟨n, hn, fun {bound level rest} hbound hlevel hrest => ?_⟩
  have hspine := e.spine_le
  rw [hts.length_eq] at hspine
  have hpos : 0 < e.spine := by cases e <;> exact Nat.succ_pos _
  obtain ⟨c, hc⟩ : ∃ c, bound - e.spine = c + 1 := ⟨bound - e.spine - 1, by omega⟩
  rw [hclimb hbound hlevel (hrest.mono (Nat.le_trans hlevel e.level_le_edge)), hc]
  exact operators_of_closes hrest n

/-- An operand that is one token. -/
theorem climbs_operand {kind : Kind} (ht : IsOperand t kind) (he : ReadsAs source e (.leaf kind t))
    (hspine : e.spine = 1) : Climbs source e [t] := by
  refine ⟨.leaf kind t, he, fun {bound level rest} hbound _ hrest => ?_⟩
  obtain ⟨c, rfl⟩ : ∃ c, bound = c + 3 := ⟨bound - 3, by simp at hbound; omega⟩
  rw [hspine]
  exact expressionAt_operand ht hrest

/-- The sorts of tokens that an expression can start with. -/
def startsExpression : Token.Kind → Bool
  | .ident | .int | .keyword .not | .keyword .true | .keyword .false | .keyword .none
  | .op .minus | .op .plus | .op .leftParen => true
  | _ => false

theorem exists_lexemes_eq_cons (e : Expr Unit) (he : e.inSourceForm = true) :
    ∃ x more, e.lexemes = x :: more ∧ startsExpression x.kind = true := by
  match e, he with
  | .literal _ value, he =>
    cases value with
    | none | true | false => exact ⟨_, _, rfl, rfl⟩
    | number value =>
      simp only [Expr.lexemes, Literal.lexemes]
      split
      · exact ⟨_, _, rfl, rfl⟩
      · exact ⟨_, _, rfl, rfl⟩
    | other => cases he
  | .ident _ _, _ | .paren _ _, _ | .call _ _ _, _ => exact ⟨_, _, rfl, rfl⟩
  | .unary _ op _, he =>
    cases op with
    | not | negate | plus => exact ⟨_, _, rfl, rfl⟩
    | other =>
      simp only [Expr.inSourceForm, Bool.and_eq_true, decide_eq_true_eq] at he
      exact absurd he.1.1 (by simp [UnaryOp.all])
  | .binary _ _ lhs _, he =>
    simp only [Expr.inSourceForm, Bool.and_eq_true] at he
    obtain ⟨x, more, hlexemes, hx⟩ := exists_lexemes_eq_cons lhs he.1.2
    exact ⟨x, _, by rw [Expr.lexemes, hlexemes]; rfl, hx⟩

theorem exists_tokens_eq_cons (he : e.inSourceForm = true) (hts : Written source e.lexemes ts) :
    ∃ t us, ts = t :: us ∧ startsExpression t.kind = true := by
  obtain ⟨x, more, hlexemes, hx⟩ := exists_lexemes_eq_cons e he
  rw [hlexemes] at hts
  obtain ⟨t, us, ht, -, rfl⟩ := List.forall₂_cons_left_iff.mp hts
  exact ⟨t, us, rfl, by rw [ht.kind, hx]⟩

/-- The least number is a numeral with a minus sign ahead of it. -/
theorem climbs_minValue (info : Info Unit)
    (hts : Written source (Expr.literal info (.number Int32.minValue)).lexemes ts) :
    Climbs source (.literal info (.number Int32.minValue)) ts := by
  change Written source [.sign .minus, .numeral Int32.minValue.toInt.natAbs] ts at hts
  obtain ⟨minus, ts', hminus, hts', rfl⟩ := List.forall₂_cons_left_iff.mp hts
  obtain ⟨digits, rfl, hdigits⟩ := Written.singleton hts'
  refine ⟨_, readsAs_minValue info hminus hdigits, fun {bound level rest} hbound _ hrest => ?_⟩
  change Closes Level.unary rest at hrest
  obtain ⟨c, rfl⟩ : ∃ c, bound = c + 5 := ⟨bound - 5, by simp at hbound; omega⟩
  have hoperand : IsOperand digits .number := ⟨by rw [hdigits.kind]; rfl, by rw [hdigits.kind]; rfl⟩
  have hunary : Level.ofUnary? minus.kind = some Level.unary := by rw [hminus.kind]; rfl
  refine expressionAt_prefixed hunary ?_
  exact (expressionAt_operand hoperand hrest).trans (operators_of_closes hrest _)

mutual

/-- The grammar takes in the tokens of an expression in source form. -/
theorem climbs (e : Expr Unit) (he : e.inSourceForm = true) {ts : List Token}
    (hts : Written source e.lexemes ts) : Climbs source e ts := by
  match e, he with
  | .literal info value, he =>
    by_cases hinitial : value.isInitial = true
    · obtain ⟨t, rfl, ht, -, hreads⟩ := literal_leaf hinitial hts
      exact climbs_operand ht (hreads info) rfl
    · -- The only literal that is not a word is the least number.
      have hleast : value = .number Int32.minValue := by
        cases value with
        | none | true | false => exact absurd rfl hinitial
        | number v =>
          simp only [Expr.inSourceForm, Literal.inSourceForm, Bool.or_eq_true,
            decide_eq_true_eq] at he
          exact congrArg Literal.number (he.resolve_left fun h => hinitial (decide_eq_true h))
        | other => cases he
      subst hleast
      exact climbs_minValue info hts
  | .ident info name, he =>
    obtain ⟨t, rfl, ht⟩ := Written.singleton hts
    refine climbs_operand ⟨by rw [ht.kind]; rfl, by rw [ht.kind]; rfl⟩ ?_ rfl
    refine ⟨rfl, fun w hw => ?_, _, rfl, ?_⟩
    · cases Option.mem_some.mp hw
      exact ht.text rfl
    · exact congrArg (Expr.ident ⟨(), .unknown⟩) (ht.text rfl)
  | .unary info op arg, he =>
    simp only [Expr.inSourceForm, Bool.and_eq_true, decide_eq_true_eq] at he
    obtain ⟨⟨hop, hlevel⟩, harg⟩ := he
    obtain ⟨t, us, ht, hus, rfl⟩ := List.forall₂_cons_left_iff.mp hts
    obtain ⟨n, hn, hwhole⟩ := (climbs arg harg hus).whole hus
    refine ⟨_, readsAs_unary hop info ht hn, fun {bound _ rest} hbound _ hrest => ?_⟩
    rw [List.length_cons] at hbound
    obtain ⟨c, rfl⟩ : ∃ c, bound = c + 2 := ⟨bound - 2, by omega⟩
    have hunary : Level.ofUnary? t.kind = some op.level := by
      rw [ht.kind]
      exact (unary_lexeme hop).1
    exact expressionAt_prefixed hunary (hwhole (by omega) hlevel hrest)
  | .binary info op lhs rhs, he =>
    simp only [Expr.inSourceForm, Bool.and_eq_true, decide_eq_true_eq] at he
    obtain ⟨⟨⟨⟨hop, hleft⟩, hright⟩, hlhs⟩, hrhs⟩ := he
    obtain ⟨us, ws, rfl, hus, hws⟩ := Written.append hts
    obtain ⟨t, vs, ht, hvs, rfl⟩ := List.forall₂_cons_left_iff.mp hws
    obtain ⟨left, hl, hclimb⟩ := climbs lhs hlhs hus
    obtain ⟨right, hr, hwhole⟩ := (climbs rhs hrhs hvs).whole hvs
    refine ⟨_, readsAs_binary hop info ht hl hr, fun {bound level rest} hbound hlevel hrest => ?_⟩
    obtain ⟨hbinary, hrightOf, -, -⟩ := binary_lexeme hop
    rw [← ht.kind] at hbinary hrightOf
    have hedge : Closes lhs.edge (t :: (vs ++ rest)) := by
      intro u hu
      cases Option.mem_some.mp hu
      refine ⟨?_, ?_, fun found hfound => ?_⟩
      · intro hkind
        rw [hkind] at hbinary
        cases hbinary
      · intro hkind
        rw [hkind] at hbinary
        cases hbinary
      · rw [hbinary] at hfound
        cases hfound
        exact Expr.lt_edge hleft
    rw [List.length_append, List.length_cons] at hbound
    have hspine := lhs.spine_le
    rw [hus.length_eq] at hspine
    obtain ⟨c, hc⟩ : ∃ c, bound - lhs.spine = c + 1 := ⟨bound - lhs.spine - 1, by omega⟩
    rw [List.append_assoc, List.cons_append,
      hclimb (by omega) (Nat.le_trans hlevel hleft) hedge, hc,
      show bound - (Expr.binary info op lhs rhs).spine = c by simp only [Expr.spine]; omega]
    refine operators_binary hbinary hlevel ?_
    rw [hrightOf]
    exact hwhole (by omega) hright hrest
  | .paren info arg, he =>
    obtain ⟨t, ws, ht, hws, rfl⟩ := List.forall₂_cons_left_iff.mp hts
    obtain ⟨us, vs, rfl, hus, hvs⟩ := Written.append hws
    obtain ⟨close, rfl, hclose⟩ := Written.singleton hvs
    obtain ⟨n, hn, hwhole⟩ := (climbs arg he hus).whole hus
    refine ⟨_, readsAs_paren info t close hn, fun {bound level rest} hbound _ hrest => ?_⟩
    rw [List.length_cons, List.length_append] at hbound
    obtain ⟨c, rfl⟩ : ∃ c, bound = c + 4 := ⟨bound - 4, by omega⟩
    rw [List.cons_append, List.append_assoc]
    refine expressionAt_paren ht.kind hclose.kind ?_ hrest
    exact hwhole (by omega) arg.or_le_level (closes_of_kind hclose.kind (by decide))
  | .call info function args, he =>
    simp only [Expr.inSourceForm, Bool.and_eq_true] at he
    obtain ⟨t, ws, ht, hws, rfl⟩ := List.forall₂_cons_left_iff.mp hts
    obtain ⟨open_, us, hopen, hus, rfl⟩ := List.forall₂_cons_left_iff.mp hws
    obtain ⟨ns, hns, hargs⟩ := arguments_written args he.2 hus
    refine ⟨_, readsAs_call info ht open_ hns, fun {bound level rest} hbound _ hrest => ?_⟩
    rw [List.length_cons, List.length_cons] at hbound
    obtain ⟨c, rfl⟩ : ∃ c, bound = c + 4 := ⟨bound - 4, by omega⟩
    exact expressionAt_call ht.kind hopen.kind (hargs (by omega)) hrest

/-- The grammar takes in the arguments of a call. -/
theorem arguments_written (args : List (Expr Unit)) (hargs : Expr.allInSourceForm args = true)
    {ts : List Token} (hts : Written source (Expr.argLexemes args) ts) :
    ∃ ns, ArgumentsRead source args ns ∧ ∀ {bound : Nat} {rest : List Token},
      6 * ts.length ≤ bound → arguments bound (ts ++ rest) = .ok (ns, rest) := by
  match args, hargs with
  | [], _ =>
    obtain ⟨close, rfl, hclose⟩ := Written.singleton hts
    refine ⟨_, .none close, fun {bound rest} hbound => ?_⟩
    obtain ⟨c, rfl⟩ : ∃ c, bound = c + 1 := ⟨bound - 1, by simp at hbound; omega⟩
    exact arguments_close hclose.kind
  | arg :: args, hargs =>
    simp only [Expr.allInSourceForm, Bool.and_eq_true] at hargs
    rw [Expr.argLexemes, List.append_assoc] at hts
    obtain ⟨us, ws, rfl, hus, hws⟩ := Written.append hts
    obtain ⟨n, hn, hwhole⟩ := (climbs arg hargs.1 hus).whole hus
    obtain ⟨u, us, rfl, hu⟩ := exists_tokens_eq_cons hargs.1 hus
    have hfirst : u.kind ≠ .op .rightParen := by
      intro hkind
      rw [hkind] at hu
      cases hu
    cases args with
    | nil =>
      obtain ⟨close, rfl, hclose⟩ := Written.singleton hws
      have hkind : close.kind = .op .rightParen := hclose.kind
      refine ⟨_, .last hn close, fun {bound rest} hbound => ?_⟩
      simp only [List.length_append, List.length_cons] at hbound
      obtain ⟨c, rfl⟩ : ∃ c, bound = c + 2 := ⟨bound - 2, by omega⟩
      have hexpression : expressionAt (c + 1) Level.or (u :: (us ++ close :: rest)) =
          .ok (n, close :: rest) :=
        hwhole (by rw [List.length_cons]; omega) arg.or_le_level (closes_of_kind hkind (by decide))
      rw [List.append_assoc, List.cons_append, List.singleton_append,
        arguments_argument hfirst hexpression (by rw [hkind]; decide),
        if_neg (by rw [hkind]; decide), if_pos hkind, arguments_close hkind]
      rfl
    | cons next args =>
      obtain ⟨comma, vs, hcomma, hvs, rfl⟩ := List.forall₂_cons_left_iff.mp hws
      obtain ⟨ns, hns, hmore⟩ := arguments_written (next :: args) hargs.2 hvs
      have hkind : comma.kind = .op .comma := hcomma.kind
      refine ⟨_, .more hn comma (List.cons_ne_nil _ _) hns, fun {bound rest} hbound => ?_⟩
      simp only [List.length_append, List.length_cons] at hbound
      obtain ⟨c, rfl⟩ : ∃ c, bound = c + 2 := ⟨bound - 2, by omega⟩
      have hexpression : expressionAt (c + 1) Level.or (u :: (us ++ comma :: (vs ++ rest))) =
          .ok (n, comma :: (vs ++ rest)) :=
        hwhole (by rw [List.length_cons]; omega) arg.or_le_level (closes_of_kind hkind (by decide))
      rw [List.append_assoc, List.cons_append, List.cons_append,
        arguments_argument hfirst hexpression (by rw [hkind]; decide), if_pos hkind,
        hmore (by omega)]
      rfl

end

/-- The tokens of an expression are read as one, up to a token that does not go on with it. -/
theorem expression_written (he : e.inSourceForm = true) (hts : Written source e.lexemes ts) :
    ∃ n, ReadsAs source e n ∧ ∀ {rest : List Token}, Closes Level.or rest →
      expression (ts ++ rest) = .ok (n, rest) := by
  obtain ⟨n, hn, hwhole⟩ := (climbs e he hts).whole hts
  refine ⟨n, hn, fun {rest} hrest => hwhole ?_ e.or_le_level hrest⟩
  rw [depthBound, List.length_append]
  omega

end Source

end WatCompiler
