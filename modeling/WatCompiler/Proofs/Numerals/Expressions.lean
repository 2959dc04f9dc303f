import WatCompiler.Proofs.Numerals.Operands
import WatCompiler.Proofs.Program.ReadExprs

/-!
# Numerals in expressions

Two sources with parallel trees are read side by side. Where the first one has a result, the second
one has a result exactly if its numerals fit in 32 bits (`Agrees`): nothing else in which they
differ can make reading fail. A numeral is read as its value (`literal_number_eq_ok_iff`); behind a
minus sign that is applied to it directly, its magnitude may be one more (`expr_negated_eq_ok_iff`).
The expression that is read has the numbers of its node, from left to right (`expr_agrees`).
-/

namespace WatCompiler.Program.Reading

open SyntaxTree (Node Counterparts AllCounterparts numeralsAll negatedDigits? definesVariable)
open Token (isNumeral)

/-! ## Numerals -/

section Digits

variable {t : Text}

/-- Digits are read exactly if their value is small enough. -/
theorem readDigits_eq_ok_iff (ht : isNumeral t = true) {k : Nat} :
    Text.readDigits t = .ok k ↔ Text.digitsValue 0 t = k ∧ k < Text.magnitudeLimit := by
  simp only [isNumeral, Bool.and_eq_true] at ht
  rw [Text.readDigits, if_neg (by simpa using ht.1.1), Text.readMagnitude_eq_ok (by decide)]
  exact ⟨And.right, fun h => ⟨ht.1.2, h⟩⟩

/-- A numeral is read if its value is not too large. -/
theorem readInt32_eq_ok_iff (ht : isNumeral t = true) {v : Int32} :
    Text.readInt32 t = .ok v ↔
      Text.digitsValue 0 t ≤ 2147483647 ∧ v = Int32.ofInt (Text.digitsValue 0 t) := by
  cases t with
  | nil => cases ht
  | cons c rest =>
    have hdigits := ht
    simp only [isNumeral, List.all_cons, Bool.and_eq_true] at hdigits
    have hsign : c ≠ Text.byte '-' ∧ c ≠ Text.byte '+' := by
      constructor <;> (rintro rfl; cases hdigits.1.2.1)
    rw [Text.readInt32, if_neg hsign.1, if_neg hsign.2, bind_eq_ok]
    simp only [readDigits_eq_ok_iff ht]
    constructor
    · rintro ⟨k, ⟨rfl, -⟩, h⟩
      split at h
      · next hlt => exact ⟨Nat.le_of_lt_succ hlt, (pure_eq_ok.mp h).symm⟩
      · cases h
    · rintro ⟨hle, rfl⟩
      refine ⟨_, ⟨rfl, ?_⟩, if_pos (Nat.lt_succ_of_le hle)⟩
      exact Nat.lt_of_le_of_lt hle (by decide)

/-- After a minus sign one more numeral is read. -/
theorem readInt32_minus_eq_ok_iff (ht : isNumeral t = true) {v : Int32} :
    Text.readInt32 ("-" ++ t) = .ok v ↔
      Text.digitsValue 0 t ≤ 2147483648 ∧ v = Int32.ofInt (-Text.digitsValue 0 t) := by
  change Text.readInt32 (Text.byte '-' :: t) = .ok v ↔ _
  rw [Text.readInt32, if_pos rfl, bind_eq_ok]
  simp only [readDigits_eq_ok_iff ht]
  constructor
  · rintro ⟨k, ⟨rfl, -⟩, h⟩
    split at h
    · next hle => exact ⟨hle, (pure_eq_ok.mp h).symm⟩
    · cases h
  · rintro ⟨hle, rfl⟩
    exact ⟨_, ⟨rfl, Nat.lt_of_le_of_lt hle (by decide)⟩, if_pos hle⟩

end Digits

/-! ## Two readings -/

section Agrees

variable {α β γ δ : Type} {xs ys : List Numeral} {R : α → β → Prop} {S : γ → δ → Prop}
  {x : Except Failure α} {y : Except Failure β}

/-- Where the first reading has a result, the second one has a result exactly if the numerals fit,
and then the two results are related. -/
def Agrees (xs : List Numeral) (R : α → β → Prop) (x : Except Failure α)
    (y : Except Failure β) : Prop :=
  ∀ a, x = .ok a → ((∃ b, y = .ok b) ↔ ∀ z ∈ xs, z.Fits) ∧ ∀ b, y = .ok b → R a b

namespace Agrees

theorem fail {failure : Failure} : Agrees xs R (.error failure) y := nofun

theorem ok {a : α} {b : β} (h : R a b) : Agrees [] R (.ok a) (.ok b) := by
  intro a' ha'
  cases ha'
  refine ⟨⟨fun _ => List.forall_mem_nil _, fun _ => ⟨b, rfl⟩⟩, ?_⟩
  intro b' hb'
  cases hb'
  exact h

/-- One reading after another: both have to fit, with the numerals of either. -/
theorem bind {k : α → Except Failure γ} {k' : β → Except Failure δ} (h : Agrees xs R x y)
    (hk : ∀ a b, R a b → Agrees ys S (k a) (k' b)) : Agrees (xs ++ ys) S (x >>= k) (y >>= k') := by
  intro c hc
  obtain ⟨a, ha, hc⟩ := bind_eq_ok.mp hc
  obtain ⟨hfits, hrelated⟩ := h a ha
  rw [List.forall_mem_append, ← hfits]
  constructor
  · constructor
    · rintro ⟨d, hd⟩
      obtain ⟨b, hb, hd⟩ := bind_eq_ok.mp hd
      exact ⟨⟨b, hb⟩, (hk a b (hrelated b hb) c hc).1.mp ⟨d, hd⟩⟩
    · rintro ⟨⟨b, hb⟩, hys⟩
      obtain ⟨d, hd⟩ := (hk a b (hrelated b hb) c hc).1.mpr hys
      exact ⟨d, bind_eq_ok.mpr ⟨b, hb, hd⟩⟩
  · intro d hd
    obtain ⟨b, hb, hd⟩ := bind_eq_ok.mp hd
    exact (hk a b (hrelated b hb) c hc).2 d hd

/-- What comes after a part without numerals. -/
theorem next {k : α → Except Failure γ} {k' : β → Except Failure δ} (h : Agrees [] R x y)
    (hk : ∀ a b, R a b → Agrees ys S (k a) (k' b)) : Agrees ys S (x >>= k) (y >>= k') :=
  h.bind hk

/-- What never succeeds agrees with anything. -/
theorem bind_fail {k : α → Except Failure γ} {y : Except Failure δ} (h : ∀ a c, k a ≠ .ok c) :
    Agrees xs S (x >>= k) y := by
  intro c hc
  obtain ⟨a, -, hc⟩ := bind_eq_ok.mp hc
  exact absurd hc (h a c)

/-- Both sides take the same branch. -/
theorem ite {c : Prop} [Decidable c] {x' : Except Failure α} {y' : Except Failure β}
    (h : c → Agrees xs R x y) (h' : ¬ c → Agrees xs R x' y') :
    Agrees xs R (if c then x else x') (if c then y else y') := by
  by_cases hc : c
  · rw [if_pos hc, if_pos hc]
    exact h hc
  · rw [if_neg hc, if_neg hc]
    exact h' hc

/-- Only which numerals have to fit counts, not their order. -/
theorem congr (h : Agrees xs R x y) (hfits : (∀ z ∈ ys, z.Fits) ↔ ∀ z ∈ xs, z.Fits) :
    Agrees ys R x y := by
  intro a ha
  rw [hfits]
  exact h a ha

/-- What is done with a result at the end adds no numerals. -/
theorem map {f : α → γ} {g : β → δ} (h : Agrees xs R x y) (hS : ∀ a b, R a b → S (f a) (g b)) :
    Agrees xs S (x >>= fun a => pure (f a)) (y >>= fun b => pure (g b)) := by
  rw [← List.append_nil xs]
  exact h.bind fun a b hab => .ok (hS a b hab)

end Agrees

end Agrees

variable {text text' : Text} {n n' : Node} {ns ns' : List Node}

/-! ## Literals and types -/

theorem finished_agrees (h : AllCounterparts text text' ns ns') :
    Agrees (numeralsAll text' ns') (fun _ _ => ns' = []) (finished (.ofText text) ns)
      (finished (.ofText text') ns') := by
  cases ns with
  | nil =>
    cases h.nil_eq
    exact .ok rfl
  | cons n rest => exact .fail

/-- Where nothing may be left, there is no numeral. -/
theorem finished_silent (h : AllCounterparts text text' ns ns') :
    Agrees [] (fun _ _ => ns' = []) (finished (.ofText text) ns)
      (finished (.ofText text') ns') := by
  cases ns with
  | nil =>
    cases h.nil_eq
    exact .ok rfl
  | cons n rest => exact .fail

/-- The number that the digits of a node stand for. -/
def magnitudeOf (text : Text) (n : Node) : Nat := Text.digitsValue 0 (n.text text)

/-- A numeral without a sign is read as its value, which must fit. -/
theorem literal_number_eq_ok_iff (hn : n.Shaped text) (hkind : n.kind = .number) {v : Literal} :
    literal (.ofText text) n = .ok v ↔
      magnitudeOf text n ≤ 2147483647 ∧ v = .number (Int32.ofInt (magnitudeOf text n)) := by
  obtain ⟨-, -, hnumeral⟩ := hn.leaf hkind fun _ => id
  have hread : ∀ {v}, Text.readInt32 (n.text text) = .ok v ↔
      magnitudeOf text n ≤ 2147483647 ∧ v = Int32.ofInt (magnitudeOf text n) :=
    readInt32_eq_ok_iff hnumeral
  unfold literal
  rw [hkind]
  dsimp only
  split
  · next value hvalue =>
    obtain ⟨hle, rfl⟩ := hread.mp hvalue
    constructor
    · intro h
      cases h
      exact ⟨hle, rfl⟩
    · rintro ⟨-, rfl⟩
      rfl
  · next fault hfault =>
    refine ⟨nofun, ?_⟩
    rintro ⟨hle, -⟩
    cases hfault.symm.trans (hread.mpr ⟨hle, rfl⟩)

/-- The literal of a node is pushed as its numeral is. Only a numeral is read as a number. -/
structure LiteralOf (text' : Text) (n' : Node) (v : Literal) : Prop where
  operands : v.operands ((LineIndex.ofText text').position n'.start) =
    Numeral.operands text' (n'.numerals text')
  isNumber : n'.kind ≠ .number → ∀ pos, v.operands pos = []

/-- A literal is read exactly if its numeral fits. -/
theorem literal_agrees (h : Counterparts text text' n n') :
    Agrees (n'.numerals text') (fun _ v => LiteralOf text' n' v) (literal (.ofText text) n)
      (literal (.ofText text') n') := by
  cases hkind : n.kind with
  | number =>
    have hkind' := h.kind_eq.trans hkind
    -- What the first numeral was read as does not matter.
    intro _ _
    rw [Node.numerals_of_number hkind', List.forall_mem_singleton]
    simp only [literal_number_eq_ok_iff h.shaped' hkind']
    refine ⟨⟨?_, ?_⟩, ?_⟩
    · rintro ⟨v, hle, -⟩
      exact hle
    · intro hfits
      exact ⟨_, hfits, rfl⟩
    · rintro v ⟨-, rfl⟩
      refine ⟨?_, fun hne => absurd hkind' hne⟩
      rw [Node.numerals_of_number hkind']
      rfl
  | boolean =>
    obtain ⟨htext, hnone⟩ := h.leaf hkind (fun _ => id) (by decide)
    have hword : textOf (.ofText text') n' = textOf (.ofText text) n := htext
    unfold literal
    rw [h.kind_eq, hkind, hword, hnone]
    refine .ite (fun _ => ?_) (fun _ => ?_)
    · exact .ok ⟨hnone ▸ rfl, fun _ _ => rfl⟩
    · exact .ok ⟨hnone ▸ rfl, fun _ _ => rfl⟩
  | none =>
    obtain ⟨-, hnone⟩ := h.leaf hkind (fun _ => id) (by decide)
    unfold literal
    rw [h.kind_eq, hkind, hnone]
    exact .ok ⟨hnone ▸ rfl, fun _ _ => rfl⟩
  | _ =>
    unfold literal
    rw [hkind]
    exact .fail

/-- A type name holds no numeral. -/
theorem typeName_agrees {mark : Operator} (h : Counterparts text text' n n')
    (hkind : n.kind = .typeDef) :
    Agrees [] (fun name name' => name' = name ∧ n'.numerals text' = [])
      (typeName (.ofText text) mark n) (typeName (.ofText text') mark n') := by
  obtain ⟨kind, start, stop, children⟩ := n
  obtain ⟨kind', start', stop', children'⟩ := n'
  cases h.kind_eq.trans hkind
  have hchildren := h.children
  rw [Node.numerals_of_gathers rfl]
  unfold typeName
  dsimp only at hchildren ⊢
  cases children with
  | nil => exact .fail
  | cons m rest =>
    obtain ⟨m', rest', rfl, hm, hrest⟩ := hchildren.exists_cons
    dsimp only
    rw [hm.kind_eq]
    refine .ite (fun _ => .fail) (fun hmark => ?_)
    rw [hm.numerals_cons (not_not.mp hmark) (fun _ => id) nofun]
    cases rest with
    | nil => exact .fail
    | cons name rest =>
      obtain ⟨name', rest', rfl, hname, hrest⟩ := hrest.exists_cons
      dsimp only
      rw [hname.kind_eq]
      refine .ite (fun hkinds => ?_) (fun _ => .fail)
      have hleaf : name'.text text' = name.text text ∧ name'.numerals text' = [] := by
        rcases hkinds with hkinds | hkinds
        · exact hname.leaf hkinds (fun _ => id) (by decide)
        · exact hname.leaf hkinds (fun _ => id) (by decide)
      rw [numeralsAll, hleaf.2, List.nil_append]
      refine (finished_silent hrest).map ?_
      rintro - - rfl
      exact ⟨hleaf.1, rfl⟩

/-! ## Expressions -/

/-- The expression of a node pushes its numerals. Only a numeral is read as a number that is not
negative. -/
structure ExprOf (text' : Text) (n' : Node) (e : Expr Unit) : Prop where
  operands : e.operands = Numeral.operands text' (n'.numerals text')
  negative : n'.kind ≠ .number → ∀ info v, e = .literal info (.number v) → v < 0

/-- The two nodes are read as expressions if their numerals fit. -/
def ExprAgrees (text text' : Text) (n n' : Node) : Prop :=
  Agrees (n'.numerals text') (fun _ e => ExprOf text' n' e) (expr (.ofText text) n)
    (expr (.ofText text') n')

/-- The same lists end here. -/
theorem head?_all_eq (h : AllCounterparts text text' ns ns') :
    (ns'.head?.all fun next => decide (next.kind = .op .rightParen)) =
      ns.head?.all fun next => decide (next.kind = .op .rightParen) := by
  cases ns with
  | nil =>
    cases h.nil_eq
    rfl
  | cons next more =>
    obtain ⟨next', more', rfl, hnext, -⟩ := h.exists_cons
    simp [hnext.kind_eq]

/-- Arguments up to the closing parenthesis, each with its numerals. -/
theorem arguments_agrees {list list' : Node} :
    ∀ {ns ns' : List Node}, AllCounterparts text text' ns ns' →
      (∀ c ∈ ns, ∀ c', Counterparts text text' c c' → ExprAgrees text text' c c') →
      Agrees (numeralsAll text' ns')
        (fun _ args => Expr.allOperands args = Numeral.operands text' (numeralsAll text' ns'))
        (arguments (.ofText text) list ns) (arguments (.ofText text') list' ns')
  | [], _, _, _ => by
    unfold arguments
    exact .fail
  | [arg], ns', h, hread => by
    obtain ⟨arg', rest', rfl, harg, hrest⟩ := h.exists_cons
    cases hrest.nil_eq
    unfold arguments
    exact (hread arg List.mem_cons_self arg' harg).bind fun _ _ _ => .fail
  | arg :: mark :: rest, ns', h, hread => by
    obtain ⟨arg', others', rfl, harg, hothers⟩ := h.exists_cons
    obtain ⟨mark', rest', rfl, hmark, hrest⟩ := hothers.exists_cons
    unfold arguments
    rw [numeralsAll]
    refine (hread arg List.mem_cons_self arg' harg).bind ?_
    intro e e' he
    rw [hmark.kind_eq]
    refine .ite (fun hclose => ?_) (fun _ => .ite (fun hcomma => ?_) (fun _ => .fail))
    · rw [hmark.numerals_cons hclose (fun _ => id) (by decide)]
      refine (finished_agrees hrest).map ?_
      rintro - - rfl
      rw [Expr.allOperands, he.operands, Numeral.operands_append]
      rfl
    · rw [hmark.numerals_cons hcomma (fun _ => id) (by decide)]
      rw [head?_all_eq hrest]
      refine .ite (fun _ => .fail) (fun _ => ?_)
      have hread' : ∀ c ∈ rest, ∀ c', Counterparts text text' c c' → ExprAgrees text text' c c' :=
        fun c hc => hread c (List.mem_cons_of_mem _ (List.mem_cons_of_mem _ hc))
      refine (arguments_agrees hrest hread').map ?_
      intro _ args hargs
      rw [Expr.allOperands, he.operands, hargs, Numeral.operands_append]

theorem argumentList_agrees (h : Counterparts text text' n n') (hkind : n.kind = .argList)
    (hread : ∀ c ∈ n.children, ∀ c', Counterparts text text' c c' → ExprAgrees text text' c c') :
    Agrees (n'.numerals text')
      (fun _ args => Expr.allOperands args = Numeral.operands text' (n'.numerals text'))
      (argumentList (.ofText text) n) (argumentList (.ofText text') n') := by
  obtain ⟨kind, start, stop, children⟩ := n
  obtain ⟨kind', start', stop', children'⟩ := n'
  cases h.kind_eq.trans hkind
  have hchildren := h.children
  rw [Node.numerals_of_gathers rfl]
  unfold argumentList
  dsimp only at hchildren hread ⊢
  cases children with
  | nil => exact .fail
  | cons paren rest =>
    obtain ⟨paren', rest', rfl, hparen, hrest⟩ := hchildren.exists_cons
    dsimp only
    rw [hparen.kind_eq]
    refine .ite (fun _ => .fail) (fun hopen => ?_)
    rw [hparen.numerals_cons (not_not.mp hopen) (fun _ => id) (by decide)]
    cases rest with
    | nil => exact .fail
    | cons first others =>
      obtain ⟨first', others', rfl, hfirst, hothers⟩ := hrest.exists_cons
      dsimp only
      rw [hfirst.kind_eq]
      refine .ite (fun hclose => ?_) (fun _ => ?_)
      · rw [hfirst.numerals_cons hclose (fun _ => id) (by decide)]
        refine (finished_agrees hothers).map ?_
        rintro - - rfl
        rfl
      · exact arguments_agrees hrest fun c hc => hread c (List.mem_cons_of_mem _ hc)

theorem literal_exprAgrees (h : Counterparts text text' n n') :
    Agrees (n'.numerals text') (fun _ e => ExprOf text' n' e)
      (do
        let value ← literal (.ofText text) n
        pure (Expr.literal (infoOf (.ofText text) n) value))
      (do
        let value ← literal (.ofText text') n'
        pure (.literal (infoOf (.ofText text') n') value)) := by
  refine (literal_agrees h).map ?_
  intro _ value hvalue
  refine ⟨hvalue.operands, ?_⟩
  intro hkind info v heq
  -- A node that is no numeral is not read as a number.
  have hnone := hvalue.isNumber hkind .unknown
  cases heq
  cases hnone

/-- No operator is a numeral. -/
theorem ofSymbol?_numeral {t : Text} (ht : isNumeral t = true) :
    BinaryOp.ofSymbol? t = none ∧ UnaryOp.ofSymbol? t = none := by
  have hbinary : ∀ op ∈ BinaryOp.all, isNumeral op.symbol = false := by decide +kernel
  have hunary : ∀ op ∈ UnaryOp.all, isNumeral op.symbol = false := by decide +kernel
  constructor
  · refine List.find?_eq_none.mpr fun op hop hsymbol => ?_
    rw [← eq_of_beq hsymbol, hbinary op hop] at ht
    cases ht
  · refine List.find?_eq_none.mpr fun op hop hsymbol => ?_
    rw [← eq_of_beq hsymbol, hunary op hop] at ht
    cases ht

section

variable {start stop : Nat} {children : List Node}

/-- The numerals of both operands have to fit. -/
theorem binary_agrees
    (h : Counterparts text text' ⟨.binaryExpression, start, stop, children⟩ n')
    (hread : ∀ c ∈ children, ∀ c', Counterparts text text' c c' → ExprAgrees text text' c c') :
    ExprAgrees text text' ⟨.binaryExpression, start, stop, children⟩ n' := by
  obtain ⟨kind', start', stop', children'⟩ := n'
  cases h.kind_eq
  obtain ⟨-, -, lhs, opNode, rhs, rfl, hleaf⟩ := h.shaped.inner rfl fun _ => id
  obtain ⟨lhs', _, hcons, hlhs, hrest⟩ := h.children.exists_cons
  obtain ⟨opNode', _, rfl, hop, hrest⟩ := hrest.exists_cons
  obtain ⟨rhs', _, rfl, hrhs, hrest⟩ := hrest.exists_cons
  cases hrest.nil_eq
  cases hcons
  -- Where the operator should be there could be a numeral, and then the first reading fails.
  by_cases hnumber : opNode.kind = .number
  · obtain ⟨-, -, hnumeral⟩ := hop.shaped.leaf hnumber fun _ => id
    unfold ExprAgrees expr
    dsimp only
    rw [show BinaryOp.ofSymbol? (textOf (.ofText text) opNode) = none from
      (ofSymbol?_numeral hnumeral).1]
    exact .bind_fail fun _ _ hok => by cases hok
  · obtain ⟨htext, hnone⟩ := hop.text_eq hleaf hnumber
    have hnumerals : Node.numerals text' ⟨.binaryExpression, start', stop', [lhs', opNode', rhs']⟩ =
        lhs'.numerals text' ++ rhs'.numerals text' := by
      rw [Node.numerals_of_gathers rfl]
      simp [numeralsAll, hnone]
    unfold ExprAgrees expr
    rw [hnumerals]
    refine (hread lhs (by simp) lhs' hlhs).bind ?_
    intro _ l hl
    rw [show textOf (.ofText text') opNode' = textOf (.ofText text) opNode from htext]
    cases hfound : BinaryOp.ofSymbol? (textOf (.ofText text) opNode) with
    | none => exact .fail
    | some op =>
      refine (hread rhs (by simp) rhs' hrhs).map ?_
      intro _ r hr
      refine ⟨?_, fun _ _ _ hliteral => by cases hliteral⟩
      rw [Expr.operands, hl.operands, hr.operands, hnumerals, Numeral.operands_append]

end

/-! ## Signed numerals -/

section Signed

variable {opNode arg : Node} {start stop : Nat}

/-- The one numeral that fits only with a minus sign. -/
theorem isLeastMagnitude_iff (harg : arg.Shaped text) (hkind : arg.kind = .number) :
    isLeastMagnitude (.ofText text) arg = true ↔ magnitudeOf text arg = 2147483648 := by
  obtain ⟨-, -, hnumeral⟩ := harg.leaf hkind fun _ => id
  have hread : Text.readInt32 ("-" ++ arg.text text) = .ok Int32.minValue ↔
      magnitudeOf text arg ≤ 2147483648 ∧ Int32.minValue = Int32.ofInt (-magnitudeOf text arg) :=
    readInt32_minus_eq_ok_iff hnumeral
  have hoption : ∀ x : Except Text.NumeralFault Int32,
      x.toOption = some Int32.minValue ↔ x = .ok Int32.minValue := by
    intro x
    cases x <;> simp [Except.toOption]
  unfold isLeastMagnitude
  rw [decide_eq_true_iff, hoption]
  change _ ∧ Text.readInt32 ("-" ++ arg.text text) = _ ↔ _
  rw [hread, and_iff_right hkind]
  constructor
  · rintro ⟨hle, hvalue⟩
    have hvalue' := congrArg Int32.toInt hvalue
    rw [Int32.toInt_ofInt_of_le (by omega) (by omega)] at hvalue'
    change -2147483648 = _ at hvalue'
    omega
  · intro heq
    rw [heq]
    exact ⟨Nat.le_refl _, rfl⟩

/-- A numeral by itself is read up to the greatest number. -/
theorem expr_number_eq_ok_iff (hn : n.Shaped text) (hkind : n.kind = .number) {e : Expr Unit} :
    expr (.ofText text) n = .ok e ↔ magnitudeOf text n ≤ 2147483647 ∧
      e = .literal (infoOf (.ofText text) n) (.number (Int32.ofInt (magnitudeOf text n))) := by
  obtain ⟨hleaf, -⟩ := hn.leaf hkind fun _ => id
  have hread := @literal_number_eq_ok_iff text n hn hkind
  obtain ⟨kind, start, stop, children⟩ := n
  cases hkind
  cases hleaf
  unfold expr
  dsimp only
  rw [bind_eq_ok]
  simp only [hread, pure_eq_ok]
  constructor
  · rintro ⟨_, ⟨hle, rfl⟩, rfl⟩
    exact ⟨hle, rfl⟩
  · rintro ⟨hle, rfl⟩
    exact ⟨_, ⟨hle, rfl⟩, rfl⟩

/-- A minus sign applied directly to a numeral. The largest magnitude is read together with it. -/
theorem expr_negated_eq_ok_iff (hsymbol : textOf (.ofText text) opNode = Operator.minus.text)
    (harg : arg.Shaped text) (hkind : arg.kind = .number) {e : Expr Unit} :
    expr (.ofText text) ⟨.unaryExpression, start, stop, [opNode, arg]⟩ = .ok e ↔
      magnitudeOf text arg ≤ 2147483648 ∧
      e = if magnitudeOf text arg = 2147483648 then
          .literal ⟨(), (LineIndex.ofText text).position start⟩ (.number Int32.minValue)
        else .unary ⟨(), (LineIndex.ofText text).position start⟩ .negate
          (.literal (infoOf (.ofText text) arg)
            (.number (Int32.ofInt (magnitudeOf text arg)))) := by
  have hfound : UnaryOp.ofSymbol? (textOf (.ofText text) opNode) = some .negate := by
    rw [hsymbol]
    decide
  have hleast := isLeastMagnitude_iff harg hkind
  conv_lhs => unfold expr
  dsimp only
  rw [hfound]
  dsimp only
  by_cases hmagnitude : magnitudeOf text arg = 2147483648
  · rw [if_pos ⟨rfl, hleast.mpr hmagnitude⟩, if_pos hmagnitude]
    constructor
    · intro h
      cases h
      exact ⟨Nat.le_of_eq hmagnitude, rfl⟩
    · rintro ⟨-, rfl⟩
      rfl
  · rw [if_neg fun h => hmagnitude (hleast.mp h.2), if_neg hmagnitude, bind_eq_ok]
    simp only [expr_number_eq_ok_iff harg hkind]
    constructor
    · rintro ⟨_, ⟨hle, rfl⟩, h⟩
      cases h
      exact ⟨Nat.le_succ_of_le hle, rfl⟩
    · rintro ⟨hle, rfl⟩
      exact ⟨_, ⟨by omega, rfl⟩, rfl⟩

theorem numerals_of_negated (hsymbol : textOf (.ofText text) opNode = Operator.minus.text)
    (hkind : arg.kind = .number) :
    Node.numerals text ⟨.unaryExpression, start, stop, [opNode, arg]⟩ =
      [⟨arg.text text, true, false, start⟩] := by
  rw [Node.numerals, if_neg (by decide), negatedDigits?, if_pos ⟨hsymbol, hkind⟩]

/-- With a minus sign, a numeral may be greater by one. -/
theorem negated_agrees {x : Except Failure (Expr Unit)}
    (hsymbol : textOf (.ofText text) opNode = Operator.minus.text) (harg : arg.Shaped text)
    (hkind : arg.kind = .number) :
    Agrees (Node.numerals text ⟨.unaryExpression, start, stop, [opNode, arg]⟩)
      (fun _ e => ExprOf text ⟨.unaryExpression, start, stop, [opNode, arg]⟩ e) x
      (expr (.ofText text) ⟨.unaryExpression, start, stop, [opNode, arg]⟩) := by
  have hnumerals := @numerals_of_negated text opNode arg start stop hsymbol hkind
  intro _ _
  simp only [expr_negated_eq_ok_iff hsymbol harg hkind]
  refine ⟨?_, ?_⟩
  · rw [hnumerals, List.forall_mem_singleton]
    constructor
    · rintro ⟨_, hle, -⟩
      exact hle
    · intro hfits
      exact ⟨_, hfits, rfl⟩
  · rintro e ⟨hle, rfl⟩
    -- The largest magnitude makes a literal, and any other one makes a negation.
    by_cases hmagnitude : magnitudeOf text arg = 2147483648
    · rw [if_pos hmagnitude]
      refine ⟨?_, ?_⟩
      · have hlarge : ¬ magnitudeOf text arg ≤ 2147483647 := by omega
        rw [hnumerals]
        change _ = [Located.mk (Numeral.code _) _]
        rw [Numeral.code, if_neg fun h => hlarge h.2]
        change _ = [Located.mk [Instr.const (Int32.ofInt (-magnitudeOf text arg))] _]
        rw [hmagnitude]
        rfl
      · intro _ info v heq
        cases heq
        decide
    · have hsmall : magnitudeOf text arg ≤ 2147483647 := by omega
      have hsign : ¬ Int32.ofInt (magnitudeOf text arg) < 0 := by
        rw [Int32.lt_iff_toInt_lt, Int32.toInt_ofInt_of_le (by omega) (by omega)]
        exact Int.not_lt.mpr (Int.natCast_nonneg _)
      rw [if_neg hmagnitude]
      refine ⟨?_, nofun⟩
      rw [hnumerals, Expr.operands, Expr.negation?, if_neg hsign]
      change _ = [Located.mk (Numeral.code _) _]
      rw [Numeral.code, if_pos ⟨rfl, hsmall⟩]
      rfl

/-- A prefixed operator: a minus sign belongs to the numeral behind it. -/
theorem unary_agrees {children : List Node}
    (h : Counterparts text text' ⟨.unaryExpression, start, stop, children⟩ n')
    (hread : ∀ c ∈ children, ∀ c', Counterparts text text' c c' → ExprAgrees text text' c c') :
    ExprAgrees text text' ⟨.unaryExpression, start, stop, children⟩ n' := by
  obtain ⟨kind', start', stop', children'⟩ := n'
  cases h.kind_eq
  obtain ⟨-, -, opNode, arg, rfl, hleaf⟩ := h.shaped.inner rfl fun _ => id
  obtain ⟨opNode', _, hcons, hop, hrest⟩ := h.children.exists_cons
  obtain ⟨arg', _, rfl, harg, hrest⟩ := hrest.exists_cons
  cases hrest.nil_eq
  cases hcons
  by_cases hnumber : opNode.kind = .number
  · obtain ⟨-, -, hnumeral⟩ := hop.shaped.leaf hnumber fun _ => id
    unfold ExprAgrees expr
    dsimp only
    rw [show UnaryOp.ofSymbol? (textOf (.ofText text) opNode) = none from
      (ofSymbol?_numeral hnumeral).2]
    exact .fail
  obtain ⟨htext, hnone⟩ := hop.text_eq hleaf hnumber
  have hsymbol : textOf (.ofText text') opNode' = textOf (.ofText text) opNode := htext
  by_cases hnegated : opNode'.text text' = Operator.minus.text ∧ arg'.kind = .number
  · exact negated_agrees hnegated.1 harg.shaped' hnegated.2
  have hnumerals : Node.numerals text' ⟨.unaryExpression, start', stop', [opNode', arg']⟩ =
      arg'.numerals text' := by
    have hinner : negatedDigits? text' .unaryExpression [opNode', arg'] = none := if_neg hnegated
    rw [Node.numerals, if_neg (by decide), hinner]
    simp [definesVariable, numeralsAll, hnone]
  unfold ExprAgrees expr
  dsimp only
  rw [hnumerals, hsymbol]
  cases hfound : UnaryOp.ofSymbol? (textOf (.ofText text) opNode) with
  | none => exact .fail
  | some op =>
    -- A minus sign is applied to something else, so that no magnitude can be the largest one.
    have hkind : op = .negate → arg'.kind ≠ .number := by
      rintro rfl hkind
      unfold UnaryOp.ofSymbol? at hfound
      have hminus := List.find?_some hfound
      exact hnegated ⟨htext.trans (eq_of_beq hminus).symm, hkind⟩
    have hleast : ¬ (op = .negate ∧ isLeastMagnitude (.ofText text) arg = true) := by
      rintro ⟨hop, hleast⟩
      exact hkind hop (harg.kind_eq.trans (of_decide_eq_true hleast).1)
    have hleast' : ¬ (op = .negate ∧ isLeastMagnitude (.ofText text') arg' = true) := by
      rintro ⟨hop, hleast⟩
      exact hkind hop (of_decide_eq_true hleast).1
    dsimp only
    rw [if_neg hleast, if_neg hleast']
    refine (hread arg (by simp) arg' harg).map ?_
    intro _ e he
    refine ⟨?_, fun _ _ _ hliteral => by cases hliteral⟩
    rw [Expr.operands, Expr.negation?_eq_none fun hop => he.negative (hkind hop), hnumerals]
    exact he.operands

end Signed

section

variable {start stop : Nat} {children : List Node}

/-- Between parentheses a numeral stands by itself. -/
theorem paren_agrees
    (h : Counterparts text text' ⟨.parenthesizedExpression, start, stop, children⟩ n')
    (hread : ∀ c ∈ children, ∀ c', Counterparts text text' c c' → ExprAgrees text text' c c') :
    ExprAgrees text text' ⟨.parenthesizedExpression, start, stop, children⟩ n' := by
  obtain ⟨kind', start', stop', children'⟩ := n'
  cases h.kind_eq
  have hchildren := h.children
  have hnumerals := @Node.numerals_of_gathers text'
    ⟨.parenthesizedExpression, start', stop', children'⟩ rfl
  unfold ExprAgrees expr
  rw [hnumerals]
  dsimp only at hchildren hnumerals ⊢
  cases children with
  | nil => exact .fail
  | cons paren rest =>
    obtain ⟨paren', rest', rfl, hparen, hrest⟩ := hchildren.exists_cons
    dsimp only
    rw [hparen.kind_eq]
    refine .ite (fun _ => .fail) (fun hopen => ?_)
    rw [hparen.numerals_cons (not_not.mp hopen) (fun _ => id) (by decide)] at hnumerals ⊢
    cases rest with
    | nil => exact .fail
    | cons arg rest =>
      obtain ⟨arg', rest', rfl, harg, hrest⟩ := hrest.exists_cons
      rw [numeralsAll]
      refine (hread arg (by simp) arg' harg).bind ?_
      intro _ e he
      cases rest with
      | nil => exact .fail
      | cons closing rest =>
        obtain ⟨closing', rest', rfl, hclosing, hrest⟩ := hrest.exists_cons
        dsimp only
        rw [hclosing.kind_eq]
        refine .ite (fun _ => .fail) (fun hclose => ?_)
        rw [hclosing.numerals_cons (not_not.mp hclose) (fun _ => id) (by decide)]
        refine (finished_agrees hrest).map ?_
        rintro - - rfl
        refine ⟨?_, fun _ _ _ hliteral => by cases hliteral⟩
        rw [hnumerals, numeralsAll,
          hclosing.numerals_cons (not_not.mp hclose) (fun _ => id) (by decide),
          Expr.operands, he.operands, numeralsAll, List.append_nil]

/-- A call reads the numerals of its arguments. -/
theorem call_agrees (h : Counterparts text text' ⟨.callExpression, start, stop, children⟩ n')
    (hread : ∀ list ∈ children, ∀ c ∈ list.children, ∀ c', Counterparts text text' c c' →
      ExprAgrees text text' c c') :
    ExprAgrees text text' ⟨.callExpression, start, stop, children⟩ n' := by
  obtain ⟨kind', start', stop', children'⟩ := n'
  cases h.kind_eq
  have hchildren := h.children
  have hnumerals := @Node.numerals_of_gathers text' ⟨.callExpression, start', stop', children'⟩ rfl
  unfold ExprAgrees expr
  rw [hnumerals]
  dsimp only at hchildren hnumerals ⊢
  cases children with
  | nil => exact .fail
  | cons callee rest =>
    obtain ⟨callee', rest', rfl, hcallee, hrest⟩ := hchildren.exists_cons
    dsimp only
    rw [hcallee.kind_eq]
    refine .ite (fun _ => .fail) (fun hname => ?_)
    rw [hcallee.numerals_cons (not_not.mp hname) (fun _ => id) (by decide)] at hnumerals ⊢
    cases rest with
    | nil => exact .fail
    | cons args rest =>
      obtain ⟨args', rest', rfl, hargs, hrest⟩ := hrest.exists_cons
      dsimp only
      rw [hargs.kind_eq]
      refine .ite (fun _ => .fail) (fun hlist => ?_)
      cases rest with
      | cons extra more => exact .fail
      | nil =>
        cases hrest.nil_eq
        rw [numeralsAll, numeralsAll, List.append_nil] at hnumerals ⊢
        have hagrees := argumentList_agrees hargs (not_not.mp hlist) (hread args (by simp))
        refine hagrees.map ?_
        intro _ es hes
        refine ⟨?_, fun _ _ _ hliteral => by cases hliteral⟩
        rw [hnumerals]
        exact hes

end

/-- An expression is read exactly if all of its numerals fit, with their values as its operands. -/
theorem expr_agrees (n : Node) {n' : Node} (h : Counterparts text text' n n') :
    ExprAgrees text text' n n' := by
  -- The arguments of a call are children of a child, so the induction is on the size.
  induction hsize : sizeOf n using Nat.strongRecOn generalizing n n' with
  | ind size ih =>
    subst hsize
    have hread : ∀ c ∈ n.children, ∀ c', Counterparts text text' c c' →
        ExprAgrees text text' c c' :=
      fun c hc c' hc' => ih _ (sizeOf_lt_of_mem hc) c hc' rfl
    have hread' : ∀ b ∈ n.children, ∀ c ∈ b.children, ∀ c', Counterparts text text' c c' →
        ExprAgrees text text' c c' := fun b hb c hc c' hc' =>
      ih _ (Nat.lt_trans (sizeOf_lt_of_mem hc) (sizeOf_lt_of_mem hb)) c hc' rfl
    have hkind' := h.kind_eq
    obtain ⟨kind, start, stop, children⟩ := n
    dsimp only at hread hread' hkind'
    cases kind with
    | binaryExpression => exact binary_agrees h hread
    | unaryExpression => exact unary_agrees h hread
    | parenthesizedExpression => exact paren_agrees h hread
    | callExpression => exact call_agrees h hread'
    | number | boolean | none =>
      obtain ⟨hleaf, -⟩ := h.shaped.leaf rfl fun _ => id
      obtain ⟨hleaf', -⟩ := h.shaped'.leaf hkind' fun _ => id
      obtain ⟨kind', start', stop', children'⟩ := n'
      cases hkind'
      cases hleaf
      cases hleaf'
      unfold ExprAgrees expr
      exact literal_exprAgrees h
    | variableName =>
      obtain ⟨-, hnone⟩ := h.leaf rfl (fun _ => id) (by simp)
      obtain ⟨kind', start', stop', children'⟩ := n'
      cases hkind'
      unfold ExprAgrees expr
      rw [hnone]
      refine .ok ⟨?_, fun _ _ _ hliteral => by cases hliteral⟩
      rw [hnone]
      rfl
    | _ =>
      unfold ExprAgrees expr
      exact .fail

end WatCompiler.Program.Reading
