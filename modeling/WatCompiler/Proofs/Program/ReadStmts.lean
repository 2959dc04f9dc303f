import WatCompiler.Proofs.Program.ReadExprs

/-!
# What statements are read from

A statement that is read from a node of a source is proper, and the words of the node say its lines;
where reading fails, it fails at a place in the source (`stmt_answers`). The arms of a conditional
are children of one node: an arm that is not the first one starts with `elif` or `else`.
-/

namespace WatCompiler.Program.Reading

open SyntaxTree (Node AllShaped wordsAll)
open WatCompiler.Source (Says Lexeme Outline)
open Token (isIdentifier)

variable {text : Text} {n : Node} {ns : List Node}

/-! ## Assignments and definitions -/

/-- The first two children tell a definition from an assignment. -/
theorem isDefinition_answers (hn : n.Shaped text) :
    Answers (InSource text)
      (fun defines => ∃ target second rest, n.children = target :: second :: rest ∧
        second.kind = if defines then .typeDef else .assignOp)
      (isDefinition (.ofText text) n) := by
  have hchildren := hn.children
  unfold isDefinition
  split
  · next target second rest heq =>
    rw [heq] at hchildren
    split
    · next hkind => exact ⟨target, second, rest, heq, hkind⟩
    · next hkind => exact ⟨target, second, rest, heq, hkind⟩
    · exact failAt_answers hchildren.2.1.start_le rfl
  · exact failAt_answers hn.start_le rfl

/-- The sign of an assignment has one spelling. -/
theorem words_of_assignOp (hn : n.Shaped text) (hkind : n.kind = .assignOp) :
    n.words text = [Operator.assign.text] := by
  obtain ⟨-, hwords, hspelled⟩ := hn.leaf hkind fun _ => id
  rw [hwords, hspelled]

/-- A definition says its name, its type and its literal, and stands where its node does. -/
theorem varDef_answers (hn : n.Shaped text) (hkind : n.kind = .assignStatement)
    {target second : Node} {rest : List Node} (heq : n.children = target :: second :: rest)
    (hsecond : second.kind = .typeDef) :
    Answers (InSource text)
      (fun v => v.Proper (Position.IsIn text) ∧ v.info.pos = posOf (.ofText text) n ∧
        Says (n.words text) v.outline.words)
      (varDef (.ofText text) n) := by
  obtain ⟨-, hwords, -⟩ := hn.inner hkind fun _ => id
  have hchildren := hn.children
  rw [heq] at hchildren hwords
  obtain ⟨htarget, htype, hrest⟩ := hchildren
  unfold varDef
  rw [heq]
  dsimp only
  split
  · exact failAt_answers htarget.start_le rfl
  · next hname =>
    obtain ⟨hword, hident⟩ := words_of_name htarget (not_not.mp hname)
    refine .bind (typeName_answers htype hsecond) ?_
    rintro typeText ⟨htypeWords, -⟩
    split
    · exact failAt_answers hn.start_le rfl
    · next op rest =>
      split
      · exact failAt_answers hrest.1.start_le rfl
      · next hop =>
        split
        · exact failAt_answers hrest.1.start_le rfl
        · next init rest =>
          refine .bind (literal_answers hrest.2.1) ?_
          rintro value ⟨hknown, hsaid⟩
          refine .bind (finished_answers hrest.2.2) ?_
          rintro ⟨⟩ rfl
          split
          · exact failAt_answers hn.start_le rfl
          · next type htypeText =>
            refine ⟨⟨⟨n.start, hn.start_le, rfl⟩, proper_infoOf hrest.2.1.start_le, hident,
              isKnown_of_variableType? htypeText, hknown, nofun⟩, rfl, ?_⟩
            rw [hwords, wordsAll, wordsAll, wordsAll, wordsAll, wordsAll, hword, htypeWords,
              words_of_assignOp hrest.1 (not_not.mp hop), List.append_nil]
            have htail : Says ([typeText] ++ ([Operator.assign.text] ++ init.words text))
                ([type.lexeme] ++ ([Lexeme.op .assign] ++ value.lexemes)) :=
              (said_variableType htypeText).append ((Says.op .assign).append hsaid)
            exact (Says.name hident).append ((Says.op .colon).append htail)

/-! ## Statements -/

/-- The statement is proper, and the words say its lines. -/
structure StmtFrom (text : Text) (words : List Text) (arm : Bool) (s : Stmt Unit) : Prop where
  proper : s.Proper (Position.IsIn text)
  words : Says words (Outline.wordsAll (s.outline arm))

/-- The node is read as a statement that says its words, or there is a fault in the source. -/
def StmtReads (text : Text) (n : Node) : Prop :=
  Answers (InSource text) (StmtFrom text (n.words text) false) (stmt (.ofText text) n)

/-- A line by itself. -/
theorem said_line {words : List Text} {xs : List Lexeme} (h : Says words xs) :
    Says words (Outline.wordsAll [.line xs]) := by
  rw [Outline.wordsAll, Outline.wordsAll, Outline.words, List.append_nil]
  exact h

/-- An assignment says its target and its value. -/
theorem assignment_answers (hn : n.Shaped text) (hkind : n.kind = .assignStatement)
    {target second : Node} {rest : List Node} (heq : n.children = target :: second :: rest)
    (hsecond : second.kind = .assignOp) :
    Answers (InSource text) (StmtFrom text (n.words text) false)
      (assignment (.ofText text) n) := by
  obtain ⟨-, hwords, -⟩ := hn.inner hkind fun _ => id
  have hchildren := hn.children
  rw [heq] at hchildren hwords
  obtain ⟨htarget, hop, hrest⟩ := hchildren
  unfold assignment
  rw [heq]
  dsimp only
  split
  · exact failAt_answers htarget.start_le rfl
  · next hname =>
    obtain ⟨hword, hident⟩ := words_of_name htarget (not_not.mp hname)
    rw [List.drop_one, List.tail_cons]
    split
    · exact failAt_answers hn.start_le rfl
    · next value rest =>
      refine .bind (expr_answers value hrest.1) ?_
      intro e he
      refine .bind (finished_answers hrest.2) ?_
      rintro ⟨⟩ rfl
      refine ⟨⟨proper_infoOf hn.start_le, hident, he.proper⟩, said_line ?_⟩
      rw [hwords, wordsAll, wordsAll, wordsAll, wordsAll, hword, words_of_assignOp hop hsecond,
        List.append_nil]
      exact (Says.name hident).append ((Says.op .assign).append he.words)

/-- The statements are proper, and the words say their lines. -/
structure StmtsFrom (text : Text) (words : List Text) (body : List (Stmt Unit)) : Prop where
  proper : Stmt.AllProper (Position.IsIn text) body
  words : Says words (Outline.wordsAll (Stmt.outlineAll body))

/-- One statement more at the front. -/
theorem StmtsFrom.cons {words words' : List Text} {s : Stmt Unit} {body : List (Stmt Unit)}
    (hs : StmtFrom text words false s) (hbody : StmtsFrom text words' body) :
    StmtsFrom text (words ++ words') (s :: body) := by
  refine ⟨⟨hs.proper, hbody.proper⟩, ?_⟩
  rw [Stmt.outlineAll, Outline.wordsAll_append]
  exact hs.words.append hbody.words

/-- Statements are said one after another. -/
theorem stmtList_answers (hns : AllShaped text ns)
    (hread : ∀ c ∈ ns, c.Shaped text → StmtReads text c) :
    Answers (InSource text) (StmtsFrom text (wordsAll text ns))
      (stmtList (.ofText text) ns) := by
  induction ns with
  | nil => exact ⟨trivial, .nil⟩
  | cons n rest ih =>
    unfold stmtList
    refine .bind (hread n List.mem_cons_self hns.1) ?_
    intro s hs
    refine .bind (ih hns.2 fun c hc => hread c (List.mem_cons_of_mem _ hc)) ?_
    intro body hbody
    exact .cons hs hbody

/-- A colon and the statements after it. -/
structure BlockFrom (text : Text) (words : List Text) (body : List (Stmt Unit)) : Prop where
  proper : Stmt.AllProper (Position.IsIn text) body
  words : Says words (.op .colon :: Outline.wordsAll (Stmt.outlineAll body))

/-- A block says its colon and its statements. -/
theorem block_answers (hn : n.Shaped text) (hkind : n.kind = .body)
    (hread : ∀ c ∈ n.children, c.Shaped text → StmtReads text c) :
    Answers (InSource text) (BlockFrom text (n.words text)) (block (.ofText text) n) := by
  obtain ⟨-, hwords, -⟩ := hn.inner hkind fun _ => id
  have hchildren := hn.children
  obtain ⟨kind, start, stop, children⟩ := n
  rw [hwords]
  unfold block
  dsimp only at hchildren hread ⊢
  split
  · exact failAt_answers hn.start_le rfl
  · next colon rest =>
    split
    · exact failAt_answers hn.start_le rfl
    · next hcolon =>
      refine .bind (stmtList_answers hchildren.2 fun c hc =>
        hread c (List.mem_cons_of_mem _ hc)) ?_
      intro body hbody
      split
      · exact failAt_answers hn.start_le rfl
      · refine ⟨hbody.proper, ?_⟩
        rw [wordsAll, words_of_lexeme hchildren.1 (not_not.mp hcolon)]
        exact (Says.op .colon).append hbody.words

/-- A head, its block, and what comes after the block. -/
theorem said_block {head words rest : List Text} {xs : List Lexeme} {body : List (Stmt Unit)}
    {os : List Outline} (hhead : Says head xs) (hbody : BlockFrom text words body)
    (hrest : Says rest (Outline.wordsAll os)) :
    Says (head ++ (words ++ rest))
      (Outline.wordsAll (.block (xs ++ [Lexeme.op .colon]) (Stmt.outlineAll body) :: os)) := by
  have hall := hhead.append (hbody.words.append hrest)
  rw [Outline.wordsAll, Outline.words, List.append_assoc, List.append_assoc]
  exact hall

/-- The arms of a conditional. The first of them starts with `if`, and no other one does. Behind an
arm without a test nothing is read. -/
theorem arms_answers {arm : Bool} :
    ∀ {ns : List Node}, ns ≠ [] → AllShaped text ns →
      (∀ b ∈ ns, ∀ c ∈ b.children, c.Shaped text → StmtReads text c) →
      (∀ word ∈ ns.head?, word.kind = .keyword .if_ ↔ arm = false) → SyntaxTree.NoIf ns.tail →
      Answers (InSource text) (StmtFrom text (wordsAll text ns) arm) (arms (.ofText text) ns)
  | [], hne, _, _, _, _ => absurd rfl hne
  | word :: rest, _, ⟨hword, hrest⟩, hread, hfirst, hothers => by
    have hinfo := proper_infoOf hword.start_le
    unfold arms
    split
    · next helse =>
      split
      · exact failAt_answers hword.start_le rfl
      · next body rest _ =>
        split
        · exact failAt_answers hword.start_le rfl
        · next hbody =>
          refine .bind (block_answers hrest.1 (not_not.mp hbody) (hread body (by simp))) ?_
          intro stmts hstmts
          split
          · refine ⟨⟨hinfo, fun _ hnone => (by cases hnone), hstmts.proper, trivial, fun _ => rfl⟩,
              ?_⟩
            rw [wordsAll, words_of_lexeme hword helse, wordsAll]
            exact said_block (Says.keyword .else_) hstmts .nil
          · exact failAt_answers hrest.2.1.start_le rfl
    split
    · next hif =>
      have hsaid : Says (word.words text) [.keyword (if arm then .elif else .if_)] := by
        by_cases harm : arm = false
        · rw [harm, words_of_lexeme hword ((hfirst word rfl).mpr harm)]
          exact .keyword .if_
        · rw [eq_true_of_ne_false harm,
            words_of_lexeme hword (hif.resolve_left fun h => harm ((hfirst word rfl).mp h))]
          exact .keyword .elif
      split
      · exact failAt_answers hword.start_le rfl
      · next test rest _ =>
        split
        · exact failAt_answers hword.start_le rfl
        · refine .bind (expr_answers test hrest.1) ?_
          intro e he
          split
          · exact failAt_answers hword.start_le rfl
          · next body rest _ =>
            split
            · exact failAt_answers hword.start_le rfl
            · next hbody =>
              have hhead := hsaid.append he.words
              refine .bind (block_answers hrest.2.1 (not_not.mp hbody) (hread body (by simp))) ?_
              intro stmts hstmts
              split
              · refine ⟨⟨hinfo, by simpa using he.proper, hstmts.proper, trivial,
                  fun hnone => by cases hnone⟩, ?_⟩
                rw [wordsAll, wordsAll, wordsAll, ← List.append_assoc]
                exact said_block hhead hstmts .nil
              · next next others _ =>
                have hmore : ∀ b ∈ next :: others, ∀ c ∈ b.children, c.Shaped text →
                    StmtReads text c := fun b hb =>
                  hread b
                    (List.mem_cons_of_mem _ (List.mem_cons_of_mem _ (List.mem_cons_of_mem _ hb)))
                have hnoIf : SyntaxTree.NoIf (next :: others) := fun b hb =>
                  hothers b (List.mem_cons_of_mem _ (List.mem_cons_of_mem _ hb))
                have hnext : ∀ word ∈ (next :: others).head?, word.kind = .keyword .if_ ↔
                    true = false := by
                  intro word hmem
                  cases Option.mem_some.mp hmem
                  exact ⟨fun h => absurd h (hnoIf next List.mem_cons_self),
                    fun hnot => by cases hnot⟩
                refine .bind (arms_answers (List.cons_ne_nil _ _) hrest.2.2 hmore hnext
                  fun b hb => hnoIf b (List.mem_cons_of_mem _ hb)) ?_
                intro orElse horElse
                refine ⟨⟨hinfo, by simpa using he.proper, hstmts.proper, horElse.proper,
                  fun hnone => by cases hnone⟩, ?_⟩
                rw [wordsAll, wordsAll, wordsAll, ← List.append_assoc]
                exact said_block hhead hstmts horElse.words
    · exact failAt_answers hword.start_le rfl
termination_by ns => ns.length
decreasing_by
  subst_vars
  simp only [List.length_cons]
  omega

section

variable {start stop : Nat} {children : List Node}

theorem expressionStatement_reads
    (hn : Node.Shaped text ⟨.expressionStatement, start, stop, children⟩) :
    StmtReads text ⟨.expressionStatement, start, stop, children⟩ := by
  obtain ⟨hne, hwords, -⟩ := hn.inner rfl fun _ => id
  have hchildren := hn.children
  unfold StmtReads stmt
  dsimp only at hchildren ⊢
  split
  · exact absurd rfl hne
  · next value rest =>
    refine .bind (expr_answers value hchildren.1) ?_
    intro e he
    refine .bind (finished_answers hchildren.2) ?_
    rintro ⟨⟩ rfl
    refine ⟨⟨proper_infoOf hn.start_le, he.proper⟩, said_line ?_⟩
    rw [hwords, wordsAll, wordsAll, List.append_nil]
    exact he.words

/-- `return` alone, or with a value behind it. -/
theorem returnStatement_reads (hn : Node.Shaped text ⟨.returnStatement, start, stop, children⟩) :
    StmtReads text ⟨.returnStatement, start, stop, children⟩ := by
  obtain ⟨-, hwords, hfirst⟩ := hn.inner rfl fun _ => id
  have hchildren := hn.children
  obtain ⟨word, hhead, hword⟩ := Option.map_eq_some_iff.mp hfirst
  obtain ⟨rest, rfl⟩ := List.head?_eq_some_iff.mp hhead
  unfold StmtReads stmt
  dsimp only at hchildren ⊢
  rw [List.drop_one, List.tail_cons]
  split
  · refine ⟨⟨proper_infoOf hn.start_le, nofun⟩, said_line ?_⟩
    rw [hwords, wordsAll, wordsAll, words_of_lexeme hchildren.1 hword]
    exact .keyword .return_
  · next value rest =>
    refine .bind (expr_answers value hchildren.2.1) ?_
    intro e he
    refine .bind (finished_answers hchildren.2.2) ?_
    rintro ⟨⟩ rfl
    refine ⟨⟨proper_infoOf hn.start_le, by simpa using he.proper⟩, said_line ?_⟩
    rw [hwords, wordsAll, wordsAll, wordsAll, words_of_lexeme hchildren.1 hword, List.append_nil]
    exact (Says.keyword .return_).append he.words

/-- A loop says its test and its block. -/
theorem whileStatement_reads (hn : Node.Shaped text ⟨.whileStatement, start, stop, children⟩)
    (hread : ∀ b ∈ children, ∀ c ∈ b.children, c.Shaped text → StmtReads text c) :
    StmtReads text ⟨.whileStatement, start, stop, children⟩ := by
  obtain ⟨-, hwords, hfirst⟩ := hn.inner rfl fun _ => id
  have hchildren := hn.children
  obtain ⟨word, hhead, hword⟩ := Option.map_eq_some_iff.mp hfirst
  obtain ⟨rest, rfl⟩ := List.head?_eq_some_iff.mp hhead
  unfold StmtReads stmt
  dsimp only at hchildren ⊢
  split
  · next test rest heq =>
    cases heq
    split
    · exact failAt_answers hn.start_le rfl
    · refine .bind (expr_answers test hchildren.2.1) ?_
      intro e he
      split
      · exact failAt_answers hn.start_le rfl
      · next body rest =>
        split
        · exact failAt_answers hn.start_le rfl
        · next hbody =>
          refine .bind (block_answers hchildren.2.2.1 (not_not.mp hbody) (hread body (by simp))) ?_
          intro stmts hstmts
          refine .bind (finished_answers hchildren.2.2.2) ?_
          rintro ⟨⟩ rfl
          refine ⟨⟨proper_infoOf hn.start_le, he.proper, hstmts.proper⟩, ?_⟩
          rw [hwords, wordsAll, wordsAll, wordsAll, words_of_lexeme hchildren.1 hword,
            ← List.append_assoc]
          exact said_block ((Says.keyword .while_).append he.words) hstmts .nil
  · exact failAt_answers hn.start_le rfl

/-- A conditional says its arms. -/
theorem ifStatement_reads (hn : Node.Shaped text ⟨.ifStatement, start, stop, children⟩)
    (hread : ∀ b ∈ children, ∀ c ∈ b.children, c.Shaped text → StmtReads text c) :
    StmtReads text ⟨.ifStatement, start, stop, children⟩ := by
  obtain ⟨hne, hwords, word, rest, hcons, hword, hnoIf⟩ := hn.inner rfl fun _ => id
  have hchildren := hn.children
  dsimp only at hcons
  subst hcons
  unfold StmtReads stmt
  rw [hwords]
  refine arms_answers hne hchildren hread ?_ hnoIf
  intro first hfirst
  cases Option.mem_some.mp hfirst
  exact ⟨fun _ => rfl, fun _ => hword⟩

theorem passStatement_reads (hn : Node.Shaped text ⟨.passStatement, start, stop, children⟩) :
    StmtReads text ⟨.passStatement, start, stop, children⟩ := by
  obtain ⟨-, hwords, hkinds⟩ := hn.inner rfl fun _ => id
  have hchildren := hn.children
  obtain ⟨word, rest, rfl, hword, hrest⟩ := List.map_eq_cons_iff.mp hkinds
  cases List.map_eq_nil_iff.mp hrest
  refine ⟨proper_infoOf hn.start_le, said_line ?_⟩
  rw [hwords, wordsAll, wordsAll, words_of_lexeme hchildren.1 hword]
  exact .keyword .pass

theorem assignStatement_reads (hn : Node.Shaped text ⟨.assignStatement, start, stop, children⟩) :
    StmtReads text ⟨.assignStatement, start, stop, children⟩ := by
  unfold StmtReads stmt
  refine .bind (isDefinition_answers hn) ?_
  rintro defines ⟨target, second, rest, heq, hsecond⟩
  cases defines with
  | true => exact failAt_answers hn.start_le rfl
  | false => exact assignment_answers hn rfl heq hsecond

end

/-- A statement that is read from a node says the words of the node. -/
theorem stmt_answers (n : Node) (hn : n.Shaped text) : StmtReads text n := by
  -- The statements of a block are children of a child, so the induction is on the size.
  induction hsize : sizeOf n using Nat.strongRecOn generalizing n with
  | ind size ih =>
    subst hsize
    have hread : ∀ b ∈ n.children, ∀ c ∈ b.children, c.Shaped text → StmtReads text c :=
      fun b hb c hc hshaped =>
        ih _ (Nat.lt_trans (sizeOf_lt_of_mem hc) (sizeOf_lt_of_mem hb)) c hshaped rfl
    obtain ⟨kind, start, stop, children⟩ := n
    cases kind with
    | assignStatement => exact assignStatement_reads hn
    | expressionStatement => exact expressionStatement_reads hn
    | returnStatement => exact returnStatement_reads hn
    | whileStatement => exact whileStatement_reads hn hread
    | ifStatement => exact ifStatement_reads hn hread
    | passStatement => exact passStatement_reads hn
    | _ => exact failAt_answers hn.start_le rfl

end WatCompiler.Program.Reading
