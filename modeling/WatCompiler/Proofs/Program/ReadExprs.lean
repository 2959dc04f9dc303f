import WatCompiler.Program.OfTree
import WatCompiler.Proofs.Program.Proper
import WatCompiler.Proofs.Source.Saying
import WatCompiler.Proofs.SyntaxTree.Shaped

/-!
# What expressions are read from

An expression that is read from a node of a source is proper, and the words of the node say it;
where reading fails, it fails at a place in the source, and not because a child is absent
(`expr_answers`). So nothing that a node holds is lost on the way to the expression.
-/

namespace WatCompiler.Program

/-- Whether the fault is that there is nothing where the grammar has a node. -/
def Fault.isAbsence : Fault → Bool
  | missingChild | missingExpression => true
  | _ => false

namespace Reading

open SyntaxTree (Node AllShaped wordsAll)
open WatCompiler.Source (Says Lexeme)
open Token (isIdentifier isNumeral)

variable {text : Text} {n : Node} {ns : List Node}

/-! ## Faults and leaves -/

/-- The fault has a place in the source, and it is not that a child is absent. -/
structure InSource (text : Text) (failure : Failure) : Prop where
  place : failure.pos.IsIn text
  present : failure.what.isAbsence = false

/-- A fault at a node is in the source. -/
theorem failAt_answers {α : Type} {good : α → Prop} (hn : n.start ≤ text.length) {fault : Fault}
    (hfault : fault.isAbsence = false) :
    Answers (InSource text) good (failAt (.ofText text) n fault) :=
  ⟨⟨n.start, hn, rfl⟩, hfault⟩

/-- What is read from a node stands where the node does, and is not annotated. -/
theorem proper_infoOf (hn : n.start ≤ text.length) :
    (infoOf (.ofText text) n).Proper (Position.IsIn text) := ⟨⟨n.start, hn, rfl⟩, nofun⟩

/-- A node with children left over is refused at the first of them. -/
theorem finished_answers (hns : AllShaped text ns) :
    Answers (InSource text) (fun _ => ns = []) (finished (.ofText text) ns) := by
  cases ns with
  | nil => rfl
  | cons n rest => exact failAt_answers hns.1.start_le rfl

/-- A keyword or a punctuation mark has its own spelling. -/
theorem words_of_lexeme (hn : n.Shaped text) {spelling : Text} (hkind : n.kind = .lexeme spelling) :
    n.words text = [spelling] := by
  obtain ⟨-, hwords, hspelled⟩ := hn.leaf hkind fun _ => id
  rw [hwords, hspelled]

/-- A name is one word, an identifier. -/
theorem words_of_name (hn : n.Shaped text) (hkind : n.kind = .variableName) :
    n.words text = [textOf (.ofText text) n] ∧ isIdentifier (textOf (.ofText text) n) = true :=
  (hn.leaf hkind fun _ => id).2

/-! ## Literals -/

/-- A numeral has no sign. -/
theorem readInt32_numeral {t : Text} (ht : isNumeral t = true) {v : Int32}
    (h : Text.readInt32 t = .ok v) : Text.readDigits t = .ok v.toInt.natAbs ∧ ¬ v < 0 := by
  cases t with
  | nil => cases ht
  | cons c rest =>
    simp only [isNumeral, List.all_cons, Bool.and_eq_true] at ht
    have hsign : c ≠ Text.byte '-' ∧ c ≠ Text.byte '+' := by
      constructor <;> (rintro rfl; cases ht.1.2.1)
    rw [Text.readInt32, if_neg hsign.1, if_neg hsign.2] at h
    obtain ⟨k, hk, h⟩ := bind_eq_ok.mp h
    split at h
    · next hlt =>
      cases h
      change k < 2147483648 at hlt
      rw [Int32.lt_iff_toInt_lt, Int32.toInt_ofInt_of_le (by omega) (by omega), Int.natAbs_natCast]
      exact ⟨hk, Int.not_lt.mpr (Int.natCast_nonneg k)⟩
    · cases h

/-- A literal says the word that it is read from. -/
theorem literal_answers (hn : n.Shaped text) :
    Answers (InSource text) (fun v => v.isKnown = true ∧ Says (n.words text) v.lexemes)
      (literal (.ofText text) n) := by
  unfold literal
  split
  · next hkind =>
    obtain ⟨-, hwords, hspelled⟩ := hn.leaf hkind fun _ => id
    split
    · next v hread =>
      obtain ⟨hdigits, hsign⟩ := readInt32_numeral hspelled hread
      refine ⟨rfl, ?_⟩
      rw [hwords, Literal.lexemes, if_neg hsign]
      exact .numeral hspelled hdigits
    · exact failAt_answers hn.start_le rfl
  · next hkind =>
    obtain ⟨-, hwords, hspelled⟩ := hn.leaf hkind fun _ => id
    split
    · next htrue =>
      refine ⟨rfl, ?_⟩
      rw [hwords, show n.text text = Keyword.true.text from htrue]
      exact .keyword .true
    · next hfalse =>
      refine ⟨rfl, ?_⟩
      rw [hwords, hspelled.resolve_left hfalse]
      exact .keyword .false
  · next hkind =>
    obtain ⟨-, hwords, hspelled⟩ := hn.leaf hkind fun _ => id
    refine ⟨rfl, ?_⟩
    rw [hwords, hspelled]
    exact .keyword .none
  · exact failAt_answers hn.start_le rfl

/-- The numeral that a minus sign makes the least number. -/
theorem said_leastMagnitude (hn : n.Shaped text)
    (hleast : isLeastMagnitude (.ofText text) n = true) :
    Says (n.words text) [.numeral Int32.minValue.toInt.natAbs] := by
  obtain ⟨hkind, hread⟩ := of_decide_eq_true hleast
  obtain ⟨-, hwords, hspelled⟩ := hn.leaf hkind fun _ => id
  rw [hwords]
  refine .numeral hspelled ?_
  obtain ⟨v, hv, rfl⟩ : ∃ v, Text.readInt32 (Text.byte '-' :: n.text text) = .ok v ∧
      v = Int32.minValue := by
    cases h : Text.readInt32 ("-" ++ textOf (.ofText text) n) with
    | error fault =>
      rw [h] at hread
      cases hread
    | ok v =>
      rw [h] at hread
      exact ⟨v, h, Option.some.inj hread⟩
  rw [Text.readInt32, if_pos rfl] at hv
  obtain ⟨k, hk, hv⟩ := bind_eq_ok.mp hv
  split at hv
  · next hle =>
    change k ≤ 2147483648 at hle
    have hvalue := congrArg Int32.toInt (pure_eq_ok.mp hv)
    rw [Int32.toInt_ofInt_of_le (by omega) (by omega)] at hvalue
    rw [← hvalue, Int.natAbs_neg, Int.natAbs_natCast]
    exact hk
  · cases hv

/-! ## Types -/

/-- A type is a mark and a name. -/
theorem typeName_answers {mark : Operator} (hn : n.Shaped text) (hkind : n.kind = .typeDef) :
    Answers (InSource text)
      (fun name => n.words text = [mark.text, name] ∧
        (isIdentifier name = true ∨ name = Keyword.none.text))
      (typeName (.ofText text) mark n) := by
  obtain ⟨hne, hwords, -⟩ := hn.inner hkind fun _ => id
  have hchildren := hn.children
  unfold typeName
  split
  · next hnil => exact absurd hnil hne
  · next m rest heq =>
    rw [heq] at hchildren hwords
    split
    · exact failAt_answers hchildren.1.start_le rfl
    · next hm =>
      have hmark := words_of_lexeme hchildren.1 (not_not.mp hm)
      split
      · exact failAt_answers hn.start_le rfl
      · next name rest =>
        split
        · next hname =>
          refine .bind (finished_answers hchildren.2.2) ?_
          rintro ⟨⟩ rfl
          rw [hwords, wordsAll, wordsAll, wordsAll, hmark]
          rcases hname with hname | hname
          · obtain ⟨-, hwords, hspelled⟩ := hchildren.2.1.leaf hname fun _ => id
            rw [hwords]
            exact ⟨rfl, Or.inl hspelled⟩
          · obtain ⟨-, hwords, hspelled⟩ := hchildren.2.1.leaf hname fun _ => id
            rw [hwords]
            exact ⟨rfl, Or.inr hspelled⟩
        · exact failAt_answers hn.start_le rfl

theorem isKnown_of_variableType? {name : Text} {type : Ty} (h : variableType? name = some type) :
    type.isKnown = true := by
  unfold variableType? at h
  split at h
  · cases h
    rfl
  · split at h <;> cases h
    rfl

/-- The name of a type says the type. -/
theorem said_variableType {name : Text} {type : Ty} (h : variableType? name = some type) :
    Says [name] [type.lexeme] := by
  unfold variableType? at h
  split at h
  · next hname =>
    cases h
    rw [hname]
    exact .name (by decide)
  split at h
  · next hname =>
    cases h
    rw [hname]
    exact .name (by decide)
  · cases h

/-! ## Expressions -/

/-- The expression is proper, and the words of the node say it. -/
structure ReadFrom (text : Text) (n : Node) (e : Expr Unit) : Prop where
  proper : e.Proper (Position.IsIn text)
  words : Says (n.words text) e.lexemes

/-- The node is read as an expression that says its words, or there is a fault in the source. -/
def ExprReads (text : Text) (n : Node) : Prop :=
  Answers (InSource text) (ReadFrom text n) (expr (.ofText text) n)

theorem sizeOf_lt_of_mem {c : Node} (h : c ∈ n.children) : sizeOf c < sizeOf n := by
  obtain ⟨kind, start, stop, children⟩ := n
  have hlt := List.sizeOf_lt_of_mem h
  rw [Node.mk.sizeOf_spec]
  dsimp only at hlt
  omega

/-- Arguments and the parenthesis that closes them. -/
theorem arguments_answers {list : Node} (hlist : list.start ≤ text.length) :
    ∀ {ns : List Node}, ns ≠ [] → AllShaped text ns → (∀ c ∈ ns, c.Shaped text → ExprReads text c) →
      Answers (InSource text)
        (fun args => args ≠ [] ∧ Expr.AllProper (Position.IsIn text) args ∧
          Says (wordsAll text ns) (Expr.argLexemes args))
        (arguments (.ofText text) list ns)
  | [], hne, _, _ => absurd rfl hne
  | [arg], _, hns, hread => by
    unfold arguments
    refine .bind (hread arg List.mem_cons_self hns.1) ?_
    intro e _
    exact failAt_answers hlist rfl
  | arg :: mark :: rest, _, ⟨harg, hmark, hrest⟩, hread => by
    unfold arguments
    refine .bind (hread arg List.mem_cons_self harg) ?_
    intro e he
    split
    · next hclose =>
      refine .bind (finished_answers hrest) ?_
      rintro ⟨⟩ rfl
      refine ⟨List.cons_ne_nil _ _, ⟨he.proper, trivial⟩, ?_⟩
      rw [wordsAll, wordsAll, wordsAll, words_of_lexeme hmark hclose, Expr.argLexemes,
        Expr.argLexemes]
      rw [List.append_assoc]
      exact he.words.append (Says.op .rightParen)
    split
    · next hcomma =>
      split
      · exact failAt_answers hmark.start_le rfl
      · next hmore =>
        have hne : rest ≠ [] := by
          rintro rfl
          exact hmore rfl
        have hread' : ∀ c ∈ rest, c.Shaped text → ExprReads text c := fun c hc =>
          hread c (List.mem_cons_of_mem _ (List.mem_cons_of_mem _ hc))
        refine .bind (arguments_answers hlist hne hrest hread') ?_
        rintro others ⟨hothers, hproper, hsaid⟩
        refine ⟨List.cons_ne_nil _ _, ⟨he.proper, hproper⟩, ?_⟩
        have hseparator : WatCompiler.Source.separator others = [.op .comma] :=
          if_neg (by simpa using hothers)
        rw [wordsAll, wordsAll, words_of_lexeme hmark hcomma, Expr.argLexemes, hseparator,
          List.append_assoc]
        exact he.words.append ((Says.op .comma).append hsaid)
    · exact failAt_answers hmark.start_le rfl

/-- Arguments between parentheses. -/
theorem argumentList_answers (hn : n.Shaped text) (hkind : n.kind = .argList)
    (hread : ∀ c ∈ n.children, c.Shaped text → ExprReads text c) :
    Answers (InSource text)
      (fun args => Expr.AllProper (Position.IsIn text) args ∧
        Says (n.words text) (.op .leftParen :: Expr.argLexemes args))
      (argumentList (.ofText text) n) := by
  obtain ⟨-, hwords, htwo⟩ := hn.inner hkind fun _ => id
  have hchildren := hn.children
  obtain ⟨kind, start, stop, children⟩ := n
  rw [hwords]
  unfold argumentList
  dsimp only at hchildren htwo hread ⊢
  split
  · exact failAt_answers hn.start_le rfl
  · next paren rest =>
    split
    · exact failAt_answers hn.start_le rfl
    · next hparen =>
      have hopen := words_of_lexeme hchildren.1 (not_not.mp hparen)
      split
      · exact absurd htwo (Nat.lt_irrefl 1 ∘ Nat.lt_of_succ_le)
      · next first others =>
        split
        · next hclose =>
          refine .bind (finished_answers hchildren.2.2) ?_
          rintro ⟨⟩ rfl
          refine ⟨trivial, ?_⟩
          rw [wordsAll, wordsAll, wordsAll, hopen, words_of_lexeme hchildren.2.1 hclose]
          exact (Says.op .leftParen).append (.op .rightParen)
        · refine Answers.imp (arguments_answers (show start ≤ text.length from hn.start_le)
            (List.cons_ne_nil _ _) hchildren.2 fun c hc => hread c (List.mem_cons_of_mem _ hc)) ?_
          rintro args ⟨-, hproper, hsaid⟩
          refine ⟨hproper, ?_⟩
          rw [wordsAll, hopen]
          exact (Says.op .leftParen).append hsaid

/-- The symbol of an operator says the operator. -/
theorem said_binaryOp {t : Text} {op : BinaryOp} (h : BinaryOp.ofSymbol? t = some op) :
    op ∈ BinaryOp.all ∧ Says [t] [op.lexeme] := by
  unfold BinaryOp.ofSymbol? at h
  have hmem := List.mem_of_find?_eq_some h
  have hsymbol := List.find?_some h
  have hspelling : ∀ op ∈ BinaryOp.all, op.symbol = op.lexeme.text ∧ op.lexeme.kind ≠ .int := by
    decide +kernel
  have hword : op.lexeme.IsWord := by
    cases op with
    | other symbol => simp [BinaryOp.all] at hmem
    | is => exact .keyword _
    | _ => exact .op _
  rw [← eq_of_beq hsymbol, (hspelling op hmem).1]
  exact ⟨hmem, .of_isWord hword (hspelling op hmem).2⟩

theorem said_unaryOp {t : Text} {op : UnaryOp} (h : UnaryOp.ofSymbol? t = some op) :
    op ∈ UnaryOp.all ∧ Says [t] [op.lexeme] := by
  unfold UnaryOp.ofSymbol? at h
  have hmem := List.mem_of_find?_eq_some h
  have hsymbol := List.find?_some h
  have hspelling : ∀ op ∈ UnaryOp.all, op.symbol = op.lexeme.text ∧ op.lexeme.kind ≠ .int := by
    decide +kernel
  have hword : op.lexeme.IsWord := by
    cases op with
    | other symbol => simp [UnaryOp.all] at hmem
    | not => exact .keyword _
    | negate | plus => exact .sign _
  rw [← eq_of_beq hsymbol, (hspelling op hmem).1]
  exact ⟨hmem, .of_isWord hword (hspelling op hmem).2⟩

theorem literal_reads (hn : n.Shaped text) :
    Answers (InSource text) (ReadFrom text n) (do
      let value ← literal (.ofText text) n
      pure (.literal (infoOf (.ofText text) n) value)) := by
  refine .bind (literal_answers hn) ?_
  rintro value ⟨hknown, hsaid⟩
  exact ⟨⟨proper_infoOf hn.start_le, hknown⟩, hsaid⟩

section

variable {start stop : Nat} {children : List Node}

/-- Two operands with an operator between them. -/
theorem binary_reads (hn : Node.Shaped text ⟨.binaryExpression, start, stop, children⟩)
    (hread : ∀ c ∈ children, c.Shaped text → ExprReads text c) :
    ExprReads text ⟨.binaryExpression, start, stop, children⟩ := by
  obtain ⟨-, hwords, lhs, opNode, rhs, rfl, hop⟩ := hn.inner rfl fun _ => id
  obtain ⟨hlhs, hopNode, hrhs, -⟩ := hn.children
  unfold ExprReads expr
  refine .bind (hread lhs (by simp) hlhs) ?_
  intro l hl
  split
  · exact failAt_answers hopNode.start_le rfl
  · next op hfound =>
    obtain ⟨hmem, hsaid⟩ := said_binaryOp hfound
    refine .bind (hread rhs (by simp) hrhs) ?_
    intro r hr
    refine ⟨⟨proper_infoOf hn.start_le, hmem, hl.proper, hr.proper⟩, ?_⟩
    rw [hwords, wordsAll, wordsAll, wordsAll, wordsAll, Node.words_leaf hop, List.append_nil]
    exact hl.words.append (hsaid.append hr.words)

/-- An operator ahead of its operand, or the least number, which is one literal. -/
theorem unary_reads (hn : Node.Shaped text ⟨.unaryExpression, start, stop, children⟩)
    (hread : ∀ c ∈ children, c.Shaped text → ExprReads text c) :
    ExprReads text ⟨.unaryExpression, start, stop, children⟩ := by
  obtain ⟨-, hwords, opNode, arg, rfl, hop⟩ := hn.inner rfl fun _ => id
  obtain ⟨hopNode, harg, -⟩ := hn.children
  rw [wordsAll, wordsAll, wordsAll, Node.words_leaf hop, List.append_nil] at hwords
  unfold ExprReads expr
  dsimp only
  split
  · exact failAt_answers hopNode.start_le rfl
  · next op hfound =>
    obtain ⟨hmem, hsaid⟩ := said_unaryOp hfound
    split
    · next hleast =>
      obtain ⟨rfl, hleast⟩ := hleast
      refine ⟨⟨proper_infoOf hn.start_le, rfl⟩, ?_⟩
      rw [hwords]
      exact hsaid.append (said_leastMagnitude harg hleast)
    · refine .bind (hread arg (by simp) harg) ?_
      intro e he
      refine ⟨⟨proper_infoOf hn.start_le, hmem, he.proper⟩, ?_⟩
      rw [hwords]
      exact hsaid.append he.words

/-- Parentheses are kept. -/
theorem paren_reads (hn : Node.Shaped text ⟨.parenthesizedExpression, start, stop, children⟩)
    (hread : ∀ c ∈ children, c.Shaped text → ExprReads text c) :
    ExprReads text ⟨.parenthesizedExpression, start, stop, children⟩ := by
  obtain ⟨hne, hwords, htwo⟩ := hn.inner rfl fun _ => id
  have hchildren := hn.children
  unfold ExprReads expr
  dsimp only at hchildren ⊢
  split
  · exact absurd rfl hne
  · next paren rest =>
    split
    · exact failAt_answers hn.start_le rfl
    · next hparen =>
      have hopen := words_of_lexeme hchildren.1 (not_not.mp hparen)
      split
      · exact absurd htwo (Nat.lt_irrefl 1 ∘ Nat.lt_of_succ_le)
      · next arg rest =>
        refine .bind (hread arg (by simp) hchildren.2.1) ?_
        intro e he
        split
        · exact failAt_answers hn.start_le rfl
        · next closing rest =>
          split
          · exact failAt_answers hn.start_le rfl
          · next hclosing =>
            have hclose := words_of_lexeme hchildren.2.2.1 (not_not.mp hclosing)
            refine .bind (finished_answers hchildren.2.2.2) ?_
            rintro ⟨⟩ rfl
            refine ⟨⟨proper_infoOf hn.start_le, he.proper⟩, ?_⟩
            rw [hwords, wordsAll, wordsAll, wordsAll, wordsAll, hopen, hclose]
            exact (Says.op .leftParen).append (he.words.append (.op .rightParen))

/-- The name of a function and its arguments. -/
theorem call_reads (hn : Node.Shaped text ⟨.callExpression, start, stop, children⟩)
    (hread : ∀ list ∈ children, ∀ c ∈ list.children, c.Shaped text → ExprReads text c) :
    ExprReads text ⟨.callExpression, start, stop, children⟩ := by
  obtain ⟨hne, hwords, -⟩ := hn.inner rfl fun _ => id
  have hchildren := hn.children
  unfold ExprReads expr
  dsimp only at hchildren ⊢
  split
  · exact absurd rfl hne
  · next callee rest =>
    split
    · exact failAt_answers hchildren.1.start_le rfl
    · next hcallee =>
      obtain ⟨hword, hname⟩ := words_of_name hchildren.1 (not_not.mp hcallee)
      split
      · exact failAt_answers hn.start_le rfl
      · next list rest =>
        split
        · exact failAt_answers hn.start_le rfl
        · next hlist =>
          refine .bind (finished_answers hchildren.2.2) ?_
          rintro ⟨⟩ rfl
          refine .bind (argumentList_answers hchildren.2.1 (not_not.mp hlist)
            (hread list (by simp))) ?_
          rintro args ⟨hproper, hsaid⟩
          refine ⟨⟨proper_infoOf hn.start_le, hname, hproper⟩, ?_⟩
          rw [hwords, wordsAll, wordsAll, wordsAll, hword, List.append_nil]
          exact (Says.name hname).append hsaid

end

/-- An expression that is read from a node says the words of the node. -/
theorem expr_answers (n : Node) (hn : n.Shaped text) : ExprReads text n := by
  -- The arguments of a call are children of a child, so the induction is on the size.
  induction hsize : sizeOf n using Nat.strongRecOn generalizing n with
  | ind size ih =>
    subst hsize
    have hread : ∀ c ∈ n.children, c.Shaped text → ExprReads text c := fun c hc hshaped =>
      ih _ (sizeOf_lt_of_mem hc) c hshaped rfl
    have hargs : ∀ list ∈ n.children, ∀ c ∈ list.children, c.Shaped text → ExprReads text c :=
      fun list hlist c hc hshaped =>
        ih _ (Nat.lt_trans (sizeOf_lt_of_mem hc) (sizeOf_lt_of_mem hlist)) c hshaped rfl
    obtain ⟨kind, start, stop, children⟩ := n
    cases kind with
    | number | boolean | none =>
      obtain ⟨hnil, -⟩ := hn.leaf rfl fun _ => id
      cases hnil
      exact literal_reads hn
    | variableName =>
      obtain ⟨-, hwords, hname⟩ := hn.leaf rfl fun _ => id
      refine ⟨⟨proper_infoOf hn.start_le, hname⟩, ?_⟩
      rw [hwords]
      exact .name hname
    | binaryExpression => exact binary_reads hn hread
    | unaryExpression => exact unary_reads hn hread
    | parenthesizedExpression => exact paren_reads hn hread
    | callExpression => exact call_reads hn hargs
    | _ => exact failAt_answers hn.start_le rfl

end Reading

end WatCompiler.Program
