import WatCompiler.Compile
import WatCompiler.Proofs.Program.ReadStmts
import WatCompiler.Proofs.Token.Located

/-!
# What programs are read from

A program that is read from the nodes of a source is proper, and the words of the nodes say its
definitions in the order of their positions and then its statements; where reading fails, it fails
at a place in the source (`items_answers`). A function that returns `None` need not say so: that is
all that can be left out (`OmitsNone`). A child that the grammar promises is never absent
(`ofTree_of_parse`).
-/

namespace WatCompiler

open SyntaxTree (Node AllShaped wordsAll)
open Token (isIdentifier)

namespace Source

/-- Some of the return types `None`, each with its arrow, are left out. -/
inductive OmitsNone : List Lexeme → List Lexeme → Prop
  | nil : OmitsNone [] []
  | keep (x : Lexeme) {xs ys : List Lexeme} (rest : OmitsNone xs ys) : OmitsNone (x :: xs) (x :: ys)
  | leaveOut {xs ys : List Lexeme} (rest : OmitsNone xs ys) :
      OmitsNone (.op .arrow :: .keyword .none :: xs) ys

namespace OmitsNone

variable {xs xs' ys ys' : List Lexeme}

theorem refl (xs : List Lexeme) : OmitsNone xs xs := by
  induction xs with
  | nil => exact .nil
  | cons x xs ih => exact .keep x ih

theorem append (h : OmitsNone xs ys) (h' : OmitsNone xs' ys') :
    OmitsNone (xs ++ xs') (ys ++ ys') := by
  induction h with
  | nil => exact h'
  | keep x _ ih => exact .keep x ih
  | leaveOut _ ih => exact .leaveOut ih

end OmitsNone

/-- The words say the lexemes, but that some return types `None` may be left out. -/
def SaysUpToNone (words : List Text) (xs : List Lexeme) : Prop :=
  ∃ ys, OmitsNone xs ys ∧ Says words ys

namespace SaysUpToNone

variable {words words' : List Text} {xs ys : List Lexeme}

theorem of_said (h : Says words xs) : SaysUpToNone words xs := ⟨xs, .refl xs, h⟩

theorem append (h : SaysUpToNone words xs) (h' : SaysUpToNone words' ys) :
    SaysUpToNone (words ++ words') (xs ++ ys) := by
  obtain ⟨zs, hzs, hsaid⟩ := h
  obtain ⟨zs', hzs', hsaid'⟩ := h'
  exact ⟨zs ++ zs', hzs.append hzs', hsaid.append hsaid'⟩

end SaysUpToNone

end Source

/-- The definitions of a program with their places. -/
def Program.definitions {α : Type} (p : Program α) : List (Position × Source.Outline) :=
  p.globals.map (fun v => (v.info.pos, v.outline)) ++ p.functions.map fun f => (f.pos, f.outline)

namespace Program.Reading

open WatCompiler.Source (Says SaysUpToNone Lexeme Outline separator)

variable {text : Text} {n : Node} {ns : List Node}

/-! ## Functions -/

/-- Parameters and the parenthesis that closes them. -/
theorem paramsUpToParen_answers {list : Node} (hlist : list.start ≤ text.length)
    (hns : AllShaped text ns) :
    Answers (InSource text)
      (fun params => (∀ p ∈ params, p.Proper (Position.IsIn text)) ∧
        Says (wordsAll text ns) (Param.lexemes params) ∧
        (ns.head?.map Node.kind ≠ some (.op .rightParen) → params ≠ []))
      (paramsUpToParen (.ofText text) list ns) := by
  fun_induction paramsUpToParen (.ofText text) list ns with
  | case1 => exact failAt_answers hlist rfl
  | case2 p rest hparen =>
    refine .bind (finished_answers hns.2) ?_
    rintro ⟨⟩ rfl
    refine ⟨nofun, ?_, fun hne => absurd (congrArg some hparen) hne⟩
    rw [wordsAll, wordsAll, words_of_lexeme hns.1 hparen]
    exact .op .rightParen
  | case3 p rest hparen hname => exact failAt_answers hns.1.start_le rfl
  | case4 p hparen hname => exact failAt_answers hns.1.start_le rfl
  | case5 p hparen hname name typeNode rest htype => exact failAt_answers hns.1.start_le rfl
  | case6 p hparen hname name typeNode rest htype ih =>
    obtain ⟨hp, htypeNode, hrest⟩ := hns
    obtain ⟨hword, hident⟩ := words_of_name hp (not_not.mp hname)
    refine .bind (typeName_answers htypeNode (not_not.mp htype)) ?_
    rintro typeText ⟨htypeWords, -⟩
    split
    · exact failAt_answers htypeNode.start_le rfl
    · next type htypeText =>
      have hparam : (⟨infoOf (.ofText text) p, name, type⟩ : Param Unit).Proper
          (Position.IsIn text) :=
        ⟨⟨p.start, hp.start_le, rfl⟩, hident, isKnown_of_variableType? htypeText,
          fun _ hshown => by cases hshown⟩
      have hhead : Says (p.words text ++ typeNode.words text)
          ([Lexeme.name name] ++ [Lexeme.op .colon, type.lexeme]) := by
        rw [hword, htypeWords]
        exact (Says.name hident).append ((Says.op .colon).append (said_variableType htypeText))
      dsimp only
      split
      · exact failAt_answers hlist rfl
      · next mark rest =>
        rw [wordsAll, wordsAll, wordsAll, ← List.append_assoc]
        split
        · next hclose =>
          refine .bind (finished_answers hrest.2) ?_
          rintro ⟨⟩ rfl
          refine ⟨List.forall_mem_singleton.mpr hparam, ?_, fun _ => List.cons_ne_nil _ _⟩
          rw [wordsAll, words_of_lexeme hrest.1 hclose]
          exact hhead.append (Says.op .rightParen)
        split
        · exact failAt_answers hrest.1.start_le rfl
        · next hcomma =>
          split
          · exact failAt_answers hrest.1.start_le rfl
          · next hmore =>
            refine .bind (ih hrest.2) ?_
            rintro others ⟨hothers, hsaid, hnonempty⟩
            have hne : others ≠ [] := by
              refine hnonempty fun hclose => hmore ?_
              obtain ⟨first, hfirst, hkind⟩ := Option.map_eq_some_iff.mp hclose
              rw [hfirst]
              exact decide_eq_true hkind
            refine ⟨List.forall_mem_cons.mpr ⟨hparam, hothers⟩, ?_, fun _ => List.cons_ne_nil _ _⟩
            have hseparator : separator others = [.op .comma] := if_neg (by simpa using hne)
            rw [words_of_lexeme hrest.1 (not_not.mp hcomma), Param.lexemes, hseparator]
            exact hhead.append ((Says.op .comma).append hsaid)

/-- Parameters between parentheses. -/
theorem params_answers (hn : n.Shaped text) (hkind : n.kind = .paramList) :
    Answers (InSource text)
      (fun params => (∀ p ∈ params, p.Proper (Position.IsIn text)) ∧
        Says (n.words text) (.op .leftParen :: Param.lexemes params))
      (params (.ofText text) n) := by
  obtain ⟨-, hwords, -⟩ := hn.inner hkind fun _ => id
  have hchildren := hn.children
  unfold params
  split
  · exact failAt_answers hn.start_le rfl
  · next paren rest heq =>
    rw [heq] at hchildren hwords
    split
    · exact failAt_answers hn.start_le rfl
    · next hparen =>
      refine Answers.imp (paramsUpToParen_answers hn.start_le hchildren.2) ?_
      rintro params ⟨hproper, hsaid, -⟩
      refine ⟨hproper, ?_⟩
      rw [hwords, wordsAll, words_of_lexeme hchildren.1 (not_not.mp hparen)]
      exact (Says.op .leftParen).append hsaid

/-- Local definitions and statements are proper, and the words say their lines. -/
structure BodyFrom (text : Text) (words : List Text) (defs : List (VarDef Unit))
    (body : List (Stmt Unit)) : Prop where
  locals : ∀ v ∈ defs, v.Proper (Position.IsIn text)
  stmts : Stmt.AllProper (Position.IsIn text) body
  words : Says words (Outline.wordsAll (defs.map VarDef.outline ++ Stmt.outlineAll body))

/-- The first node of a body is a definition, a statement or neither. -/
theorem bodyItems_answers {defining : Bool} (hns : AllShaped text ns) :
    Answers (InSource text)
      (fun body => BodyFrom text (wordsAll text ns) body.1 body.2 ∧
        (defining = false → body.1 = []))
      (bodyItems (.ofText text) defining ns) := by
  induction ns generalizing defining with
  | nil => exact ⟨⟨List.forall_mem_nil _, trivial, .nil⟩, fun _ => rfl⟩
  | cons n rest ih =>
    have hstmt : Answers (InSource text)
        (fun body => BodyFrom text (wordsAll text (n :: rest)) body.1 body.2 ∧
          (defining = false → body.1 = []))
        (do
          let first ← stmt (.ofText text) n
          let body ← bodyItems (.ofText text) false rest
          pure (body.1, first :: body.2)) := by
      refine .bind (stmt_answers n hns.1) ?_
      intro first hfirst
      refine .bind (ih hns.2) ?_
      rintro ⟨defs, stmts⟩ ⟨hbody, hnone⟩
      cases hnone rfl
      have hall := StmtsFrom.cons hfirst ⟨hbody.stmts, hbody.words⟩
      exact ⟨⟨List.forall_mem_nil _, hall.proper, hall.words⟩, fun _ => rfl⟩
    unfold bodyItems
    dsimp only
    split
    · next hkind =>
      refine .bind (isDefinition_answers hns.1) ?_
      rintro defines ⟨target, second, more, heq, hsecond⟩
      cases defines with
      | false => exact hstmt
      | true =>
        cases defining with
        | false => exact failAt_answers hns.1.start_le rfl
        | true =>
          refine .bind (varDef_answers hns.1 hkind heq hsecond) ?_
          rintro first ⟨hfirst, -, hsaid⟩
          refine .bind (ih hns.2) ?_
          rintro ⟨defs, stmts⟩ ⟨hbody, -⟩
          refine ⟨⟨List.forall_mem_cons.mpr ⟨hfirst, hbody.locals⟩, hbody.stmts, ?_⟩,
            fun hnot => by cases hnot⟩
          exact hsaid.append hbody.words
    · exact hstmt

/-- A body says its colon, its variables and its statements. -/
theorem funcBody_answers (hn : n.Shaped text) (hkind : n.kind = .body) :
    Answers (InSource text)
      (fun body => ∃ words, n.words text = Operator.colon.text :: words ∧
        BodyFrom text words body.1 body.2)
      (funcBody (.ofText text) n) := by
  obtain ⟨-, hwords, -⟩ := hn.inner hkind fun _ => id
  have hchildren := hn.children
  unfold funcBody
  split
  · exact failAt_answers hn.start_le rfl
  · next colon rest heq =>
    rw [heq] at hchildren hwords
    split
    · exact failAt_answers hn.start_le rfl
    · next hcolon =>
      refine Answers.imp (bodyItems_answers hchildren.2) ?_
      rintro body ⟨hbody, -⟩
      refine ⟨wordsAll text rest, ?_, hbody⟩
      rw [hwords, wordsAll, words_of_lexeme hchildren.1 (not_not.mp hcolon)]
      rfl

/-- The name of a result's type says the type. -/
theorem said_returnType {name : Text} {type : Ty} (h : returnType? name = some type) :
    type.isKnown = true ∧ Says [name] [type.lexeme] := by
  unfold returnType? at h
  split at h
  · next hname =>
    cases h
    rw [hname]
    exact ⟨rfl, .keyword .none⟩
  · exact ⟨isKnown_of_variableType? h, said_variableType h⟩

/-- A return type with its arrow, or nothing for `None`. -/
theorem returns_answers {function : Text} (hns : AllShaped text ns) :
    Answers (InSource text)
      (fun answer => answer.1.isKnown = true ∧ AllShaped text answer.2 ∧ ∃ words,
        wordsAll text ns = words ++ wordsAll text answer.2 ∧
          SaysUpToNone words [.op .arrow, answer.1.lexeme])
      (returns (.ofText text) function ns) := by
  have homitted : SaysUpToNone [] [.op .arrow, Ty.none.lexeme] := ⟨[], .leaveOut .nil, .nil⟩
  unfold returns
  split
  · exact ⟨rfl, trivial, [], rfl, homitted⟩
  · next n rest =>
    split
    · next hkind =>
      refine .bind (typeName_answers hns.1 hkind) ?_
      rintro name ⟨hwords, -⟩
      split
      · next type htype =>
        obtain ⟨hknown, hsaid⟩ := said_returnType htype
        refine ⟨hknown, hns.2, n.words text, rfl, .of_said ?_⟩
        rw [hwords]
        exact (Says.op .arrow).append hsaid
      · exact failAt_answers hns.1.start_le rfl
    · exact ⟨rfl, hns, [], rfl, homitted⟩

/-- A function says its words, but for a result that is not named, and stands where its node
does. -/
theorem funcDef_answers (hn : n.Shaped text) (hkind : n.kind = .functionDefinition) :
    Answers (InSource text)
      (fun f => f.Proper (Position.IsIn text) ∧ f.pos = posOf (.ofText text) n ∧
        SaysUpToNone (n.words text) f.outline.words)
      (funcDef (.ofText text) n) := by
  obtain ⟨hne, hwords, -⟩ := hn.inner hkind fun _ => id
  have hchildren := hn.children
  unfold funcDef
  split
  · next hnil => exact absurd hnil hne
  next word rest heq =>
  rw [heq] at hchildren hwords
  split
  · exact failAt_answers hchildren.1.start_le rfl
  next hword =>
  split
  · exact failAt_answers hn.start_le rfl
  next nameNode rest =>
  split
  · exact failAt_answers hn.start_le rfl
  next hnameNode =>
  dsimp only
  split
  · exact failAt_answers hn.start_le rfl
  next list rest =>
  split
  · exact failAt_answers hn.start_le rfl
  next hlist =>
  obtain ⟨hwordShaped, hnameShaped, hlistShaped, hrest⟩ := hchildren
  obtain ⟨hname, hident⟩ := words_of_name hnameShaped (not_not.mp hnameNode)
  refine .bind (params_answers hlistShaped (not_not.mp hlist)) ?_
  rintro params ⟨hparams, hparamWords⟩
  refine .bind (returns_answers hrest) ?_
  rintro ⟨type, more⟩ ⟨hknown, hmore, typeWords, htypeWords, htype⟩
  dsimp only at hknown hmore htypeWords htype ⊢
  split
  · exact failAt_answers hn.start_le rfl
  next bodyNode last =>
  split
  · exact failAt_answers hn.start_le rfl
  next hbodyNode =>
  refine .bind (funcBody_answers hmore.1 (not_not.mp hbodyNode)) ?_
  rintro ⟨locals, stmts⟩ ⟨bodyWords, hbodyWords, hbody⟩
  refine .bind (finished_answers hmore.2) ?_
  rintro ⟨⟩ rfl
  refine ⟨⟨⟨n.start, hn.start_le, rfl⟩, proper_infoOf hmore.1.start_le, hident, hparams,
    hknown, hbody.locals, hbody.stmts⟩, rfl, ?_⟩
  rw [hwords, wordsAll, wordsAll, wordsAll, htypeWords, wordsAll, wordsAll, hbodyWords,
    words_of_lexeme hwordShaped (not_not.mp hword), hname, List.append_nil]
  have hbodySaid := (Says.op .colon).append hbody.words
  have hhead := (Says.keyword .def_).append ((Says.name hident).append hparamWords)
  have hall := (SaysUpToNone.of_said hhead).append (htype.append (.of_said hbodySaid))
  simpa only [FuncDef.outline, Outline.words, List.append_assoc, List.cons_append,
    List.nil_append] using hall

/-! ## Programs -/

/-- The program is proper, and the words of the nodes say its definitions, in the order in which the
nodes stand, and then its statements. -/
structure ItemsFrom (text : Text) (ns : List Node) (p : Program Unit) : Prop where
  proper : p.Proper (Position.IsIn text)
  words : ∃ defs, List.Perm defs p.definitions ∧
    List.Sublist (defs.map Prod.fst) (ns.map (posOf (.ofText text))) ∧
    SaysUpToNone (wordsAll text ns)
      (Outline.wordsAll (defs.map Prod.snd ++ Stmt.outlineAll p.stmts))

/-- One definition more at the front. -/
theorem ItemsFrom.define {p q : Program Unit} {o : Outline} (h : ItemsFrom text ns p)
    (hq : q.Proper (Position.IsIn text)) (hstmts : q.stmts = p.stmts)
    (hperm : ((posOf (.ofText text) n, o) :: p.definitions).Perm q.definitions)
    (ho : SaysUpToNone (n.words text) o.words) : ItemsFrom text (n :: ns) q := by
  obtain ⟨defs, hdefs, hplaces, hsaid⟩ := h.words
  refine ⟨hq, (posOf (.ofText text) n, o) :: defs, (hdefs.cons _).trans hperm, ?_, ?_⟩
  · rw [List.map_cons, List.map_cons]
    exact hplaces.cons_cons _
  · rw [hstmts]
    exact ho.append hsaid

/-- One statement more at the front, with no definition behind it. -/
theorem ItemsFrom.stmt {p : Program Unit} {s : Stmt Unit} (h : ItemsFrom text ns p)
    (hnone : p.definitions = []) (hs : StmtFrom text (n.words text) false s) :
    ItemsFrom text (n :: ns) { p with stmts := s :: p.stmts } := by
  obtain ⟨defs, hdefs, -, hsaid⟩ := h.words
  rw [hnone] at hdefs
  cases hdefs.eq_nil
  refine ⟨⟨h.proper.globals, h.proper.functions, hs.proper, h.proper.stmts⟩, [], ?_,
    List.nil_sublist _, ?_⟩
  · show List.Perm [] p.definitions
    rw [hnone]
  · rw [List.map_nil, List.nil_append, Stmt.outlineAll, Outline.wordsAll_append]
    exact (SaysUpToNone.of_said hs.words).append hsaid

/-- Behind the first statement there are no definitions. -/
theorem items_answers {defining : Bool} (hns : AllShaped text ns) :
    Answers (InSource text)
      (fun p => ItemsFrom text ns p ∧ (defining = false → p.definitions = []))
      (items (.ofText text) defining ns) := by
  induction ns generalizing defining with
  | nil => exact ⟨⟨⟨nofun, nofun, trivial⟩, [], .nil, .slnil, .of_said .nil⟩, fun _ => rfl⟩
  | cons n rest ih =>
    have hstmt : Answers (InSource text)
        (fun p => ItemsFrom text (n :: rest) p ∧ (defining = false → p.definitions = []))
        (do
          let first ← stmt (.ofText text) n
          let others ← items (.ofText text) false rest
          pure { others with stmts := first :: others.stmts }) := by
      refine .bind (stmt_answers n hns.1) ?_
      intro first hfirst
      refine .bind (ih hns.2) ?_
      rintro others ⟨hothers, hnone⟩
      exact ⟨hothers.stmt (hnone rfl) hfirst, fun _ => hnone rfl⟩
    unfold items
    dsimp only
    split
    · next hkind =>
      refine .bind (isDefinition_answers hns.1) ?_
      rintro defines ⟨target, second, more, heq, hsecond⟩
      cases defines with
      | false => exact hstmt
      | true =>
        cases defining with
        | false => exact failAt_answers hns.1.start_le rfl
        | true =>
          rw [if_pos rfl, if_pos rfl, if_neg (by rw [hkind]; exact nofun)]
          refine .bind (varDef_answers hns.1 hkind heq hsecond) ?_
          rintro first ⟨hfirst, hplace, hsaid⟩
          refine .bind (ih hns.2) ?_
          rintro others ⟨hothers, -⟩
          refine ⟨hothers.define ⟨List.forall_mem_cons.mpr ⟨hfirst, hothers.proper.globals⟩,
            hothers.proper.functions, hothers.proper.stmts⟩ rfl ?_ (.of_said hsaid), nofun⟩
          rw [← hplace]
          exact .refl _
    · by_cases hfunction : n.kind = .functionDefinition
      · rw [decide_eq_true hfunction]
        cases defining with
        | false => exact failAt_answers hns.1.start_le rfl
        | true =>
          refine .bind (show Answers _ (· = true) (Except.ok true) from rfl) ?_
          rintro _ rfl
          rw [if_pos rfl, if_pos rfl, if_pos hfunction]
          refine .bind (funcDef_answers hns.1 hfunction) ?_
          rintro first ⟨hfirst, hplace, hsaid⟩
          refine .bind (ih hns.2) ?_
          rintro others ⟨hothers, -⟩
          refine ⟨hothers.define ⟨hothers.proper.globals,
            List.forall_mem_cons.mpr ⟨hfirst, hothers.proper.functions⟩, hothers.proper.stmts⟩ rfl
            ?_ hsaid, nofun⟩
          rw [← hplace]
          exact List.perm_middle.symm
      · rw [decide_eq_false hfunction]
        exact hstmt

end Program.Reading

/-! ## Sources -/

/-- The tree of a source has the shape of trees and covers the tokens; without a tree there is a
fault in the source. -/
theorem parse_answers (source : Text) :
    Answers (fun e => e.pos.IsIn source)
      (fun tree => tree.kind = .script ∧ AllShaped source tree.children ∧
        ∃ (used : List Token) (last : Token), tokenize source = .ok (used ++ [last]) ∧
          last.kind = .endOfInput ∧ SyntaxTree.Covers used tree.children)
      (SyntaxTree.parse source) := by
  cases hparse : SyntaxTree.parse source with
  | ok tree =>
    obtain ⟨hkind, used, last, rest, htokens, hlast, hcovers⟩ := SyntaxTree.covers_of_parse hparse
    cases eq_nil_of_endOfInput htokens hlast
    have hstands : ∀ t ∈ used, Token.StandsIn source t := fun t ht =>
      standsIn_of_tokenize htokens t (List.mem_append_left _ ht)
    exact ⟨hkind, SyntaxTree.shaped_of_covers hcovers hstands, used, last, htokens, hlast, hcovers⟩
  | error e =>
    unfold SyntaxTree.parse at hparse
    split at hparse
    · next fault htokens =>
      cases hparse
      unfold tokenize at htokens
      cases hrun : (Lexer.start source).run with
      | ok ts =>
        rw [hrun] at htokens
        cases htokens
      | error failure =>
        rw [hrun] at htokens
        cases htokens
        exact ⟨failure.offset, Lexer.offset_le_of_run hrun, rfl⟩
    · next ts htokens =>
      cases htree : SyntaxTree.ofTokens source.length ts with
      | ok tree =>
        rw [htree] at hparse
        cases hparse
      | error failure =>
        rw [htree] at hparse
        cases hparse
        refine ⟨failure.offset, ?_, rfl⟩
        rcases (SyntaxTree.failsIn_of_ofTokens htree).place with hzero | ⟨t, ht, hstart⟩
        · rw [hzero]
          exact Nat.zero_le _
        · rw [hstart]
          exact (standsIn_of_tokenize htokens t ht).start_le

/-- The tree of a source is read as a program that says its words. -/
theorem ofTree_answers {source : Text} {tree : Node} (hkind : tree.kind = .script)
    (htree : AllShaped source tree.children) :
    Answers (Program.Reading.InSource source) (Program.Reading.ItemsFrom source tree.children)
      (Program.ofTree source tree) := by
  unfold Program.ofTree
  dsimp only
  rw [if_neg (not_not.mpr hkind)]
  exact (Program.Reading.items_answers htree).imp fun _ h => h.1

/-- The program of a source is read from nodes that cover its tokens. -/
theorem itemsFrom_of_parseProgram {source : Text} {p : Program Unit}
    (h : parseProgram source = .ok p) :
    ∃ (used : List Token) (last : Token) (nodes : List Node),
      tokenize source = .ok (used ++ [last]) ∧ last.kind = .endOfInput ∧
        SyntaxTree.Covers used nodes ∧ Program.Reading.ItemsFrom source nodes p := by
  obtain ⟨tree, htree, h⟩ := bind_eq_ok.mp h
  obtain ⟨hkind, hshaped, used, last, htokens, hlast, hcovers⟩ :=
    (parse_answers source).of_eq_ok (mapError_eq_ok.mp htree)
  have hitems := (ofTree_answers hkind hshaped).of_eq_ok (mapError_eq_ok.mp h)
  exact ⟨used, last, tree.children, htokens, hlast, hcovers, hitems⟩

/-- A source without a program has a fault that stands in it. -/
theorem isIn_of_parseProgram {source : Text} {r : Rejection} (h : parseProgram source = .error r) :
    r.errorClass = .parse ∧ r.pos.IsIn source := by
  have hparse := parse_answers source
  unfold parseProgram at h
  cases htree : SyntaxTree.parse source with
  | error e =>
    rw [htree] at h hparse
    cases h
    exact ⟨rfl, hparse⟩
  | ok tree =>
    rw [htree] at h hparse
    have hread := ofTree_answers hparse.1 hparse.2.1
    change (Program.ofTree source tree).mapError Rejection.form = _ at h
    cases hprogram : Program.ofTree source tree with
    | ok p =>
      rw [hprogram] at h
      cases h
    | error e =>
      rw [hprogram] at h hread
      cases h
      exact ⟨rfl, hread.place⟩

namespace Program

/-- Reading the tree of a source gives a program, or a fault at a place in the source. It never gets
to a child that is absent. -/
theorem ofTree_of_parse {source : Text} {tree : SyntaxTree.Node}
    (h : SyntaxTree.parse source = .ok tree) :
    (∃ p, ofTree source tree = .ok p) ∨
      ∃ failure, ofTree source tree = .error failure ∧ failure.what ≠ .missingChild ∧
        failure.what ≠ .missingExpression ∧ failure.pos.isKnown = true ∧
        failure.pos.IsIn source := by
  obtain ⟨hkind, hshaped, -⟩ := (parse_answers source).of_eq_ok h
  cases hread : ofTree source tree with
  | ok p => exact .inl ⟨p, rfl⟩
  | error failure =>
    obtain ⟨hplace, hpresent⟩ := (ofTree_answers hkind hshaped).of_eq_error hread
    refine .inr ⟨failure, rfl, ?_, ?_, hplace.isKnown, hplace⟩
    · intro hwhat
      rw [hwhat] at hpresent
      cases hpresent
    · intro hwhat
      rw [hwhat] at hpresent
      cases hpresent

/-- An argument is announced that does not come. -/
theorem ofTree_of_parse_trailingComma :
    let source : Text := "x = f(1,)"
    ∃ tree failure, SyntaxTree.parse source = .ok tree ∧ ofTree source tree = .error failure ∧
      failure.what ≠ .missingChild ∧ failure.what ≠ .missingExpression ∧
      failure.pos.isKnown = true ∧ failure.pos.IsIn source := by
  intro source
  have hfails : (SyntaxTree.parse source).toOption.map
      (fun tree => (ofTree source tree).toOption.isSome) = some false := by
    decide +kernel
  obtain ⟨tree, htree, hnone⟩ := toOption_map_eq_some.mp hfails
  rcases ofTree_of_parse htree with ⟨p, hp⟩ | ⟨failure, hfailure⟩
  · rw [hp] at hnone
    cases hnone
  · exact ⟨tree, failure, htree, hfailure⟩

-- A tree that no source has: a statement without its expression.
example : ofTree "" ⟨.script, 0, 0, [⟨.expressionStatement, 0, 0, []⟩]⟩ =
    .error ⟨.missingExpression, .unknown⟩ := rfl

end Program

end WatCompiler
