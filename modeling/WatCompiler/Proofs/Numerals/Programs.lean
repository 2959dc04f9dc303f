import WatCompiler.Proofs.Numerals.Statements

/-!
# Numerals in programs

Parameters and types hold no numerals, and definitions stand before statements. So the numbers of a
program, those of its functions and then those of its statements, are the numerals of its tree from
left to right, and the program is read exactly if they fit (`ofTree_agrees`).
-/

namespace WatCompiler.Program

open SyntaxTree (Node Counterparts AllCounterparts numeralsAll)

namespace Reading

variable {text text' : Text} {n n' : Node} {ns ns' : List Node}

/-! ## Functions -/

/-- Parameters hold no numerals. -/
theorem paramsUpToParen_agrees {list list' : Node} :
    ∀ {ns ns' : List Node}, AllCounterparts text text' ns ns' →
      Agrees [] (fun _ _ => numeralsAll text' ns' = [])
        (paramsUpToParen (.ofText text) list ns) (paramsUpToParen (.ofText text') list' ns')
  | [], _, _ => by
    unfold paramsUpToParen
    exact .fail
  | p :: rest, ns', h => by
    obtain ⟨p', rest', rfl, hp, hrest⟩ := h.exists_cons
    unfold paramsUpToParen
    rw [hp.kind_eq]
    refine .ite (fun hclose => ?_) (fun _ => .ite (fun _ => .fail) (fun hname => ?_))
    · rw [hp.numerals_cons hclose (fun _ => id) (by decide)]
      refine (finished_silent hrest).map ?_
      rintro - - rfl
      rfl
    · rw [hp.numerals_cons (not_not.mp hname) (fun _ => id) (by decide)]
      cases rest with
      | nil => exact .fail
      | cons typeNode rest =>
        obtain ⟨typeNode', rest', rfl, htype, hrest⟩ := hrest.exists_cons
        dsimp only
        rw [htype.kind_eq]
        refine .ite (fun _ => .fail) (fun hkind => ?_)
        rw [numeralsAll]
        refine (typeName_agrees htype (not_not.mp hkind)).next ?_
        rintro _ typeText ⟨rfl, hnone'⟩
        rw [hnone', List.nil_append]
        cases variableType? typeText with
        | none => exact .fail
        | some type =>
          cases rest with
          | nil => exact .fail
          | cons separator rest =>
            obtain ⟨separator', rest', rfl, hseparator, hrest⟩ := hrest.exists_cons
            dsimp only
            rw [hseparator.kind_eq, head?_all_eq hrest]
            refine .ite (fun hclose => ?_) (fun _ => .ite (fun _ => .fail) (fun hcomma => ?_))
            · rw [hseparator.numerals_cons hclose (fun _ => id) (by decide)]
              refine (finished_silent hrest).map ?_
              rintro - - rfl
              rfl
            · rw [hseparator.numerals_cons (not_not.mp hcomma) (fun _ => id) (by decide)]
              refine .ite (fun _ => .fail) (fun _ => ?_)
              exact (paramsUpToParen_agrees hrest).map fun _ _ => id
termination_by ns => ns.length
decreasing_by
  subst_vars
  simp only [List.length_cons]
  omega

theorem params_agrees (h : Counterparts text text' n n') (hkind : n.kind = .paramList) :
    Agrees [] (fun _ _ => n'.numerals text' = []) (params (.ofText text) n)
      (params (.ofText text') n') := by
  obtain ⟨kind, start, stop, children⟩ := n
  obtain ⟨kind', start', stop', children'⟩ := n'
  cases h.kind_eq.trans hkind
  have hchildren := h.children
  rw [Node.numerals_of_gathers rfl]
  unfold params
  dsimp only at hchildren ⊢
  cases children with
  | nil => exact .fail
  | cons paren rest =>
    obtain ⟨paren', rest', rfl, hparen, hrest⟩ := hchildren.exists_cons
    dsimp only
    rw [hparen.kind_eq]
    refine .ite (fun _ => .fail) (fun hopen => ?_)
    rw [hparen.numerals_cons (not_not.mp hopen) (fun _ => id) (by decide)]
    exact paramsUpToParen_agrees hrest

/-- Local definitions push nothing. -/
theorem bodyItems_agrees {defining : Bool} (h : AllCounterparts text text' ns ns') :
    Agrees (numeralsAll text' ns')
      (fun _ body => Stmt.allOperands body.2 = Numeral.operands text' (numeralsAll text' ns'))
      (bodyItems (.ofText text) defining ns) (bodyItems (.ofText text') defining ns') := by
  induction ns generalizing ns' defining with
  | nil =>
    cases h.nil_eq
    exact .ok rfl
  | cons n rest ih =>
    obtain ⟨n', rest', rfl, hn, hrest⟩ := h.exists_cons
    have hstmt : Agrees (numeralsAll text' (n' :: rest'))
        (fun _ body => Stmt.allOperands body.2 =
          Numeral.operands text' (numeralsAll text' (n' :: rest')))
        (do
          let first ← stmt (.ofText text) n
          let body ← bodyItems (.ofText text) false rest
          pure (body.1, first :: body.2))
        (do
          let first ← stmt (.ofText text') n'
          let body ← bodyItems (.ofText text') false rest'
          pure (body.1, first :: body.2)) := by
      rw [numeralsAll]
      refine (stmt_agrees n hn).bind ?_
      intro _ s hs
      refine (ih hrest).map ?_
      intro _ body hbody
      rw [Stmt.allOperands, hs, hbody, Numeral.operands_append]
    unfold bodyItems
    dsimp only
    rw [hn.kind_eq]
    refine .ite (fun hkind => ?_) (fun _ => hstmt)
    refine (isDefinition_agrees hn).next ?_
    rintro _ defines ⟨rfl, hstarts⟩
    cases defines with
    | false => exact hstmt
    | true =>
      cases defining with
      | false => exact .fail
      | true =>
        rw [numeralsAll]
        refine (varDef_agrees hn hkind hstarts).bind ?_
        intro _ v hsilent
        refine (ih hrest).map ?_
        intro _ body hbody
        rw [Numeral.operands_append, hsilent]
        exact hbody

theorem funcBody_agrees (h : Counterparts text text' n n') (hkind : n.kind = .body) :
    Agrees (n'.numerals text')
      (fun _ body => Stmt.allOperands body.2 = Numeral.operands text' (n'.numerals text'))
      (funcBody (.ofText text) n) (funcBody (.ofText text') n') := by
  obtain ⟨kind, start, stop, children⟩ := n
  obtain ⟨kind', start', stop', children'⟩ := n'
  cases h.kind_eq.trans hkind
  have hchildren := h.children
  rw [Node.numerals_of_gathers rfl]
  unfold funcBody
  dsimp only at hchildren ⊢
  cases children with
  | nil => exact .fail
  | cons colon rest =>
    obtain ⟨colon', rest', rfl, hcolon, hrest⟩ := hchildren.exists_cons
    dsimp only
    rw [hcolon.kind_eq]
    refine .ite (fun _ => .fail) (fun hmark => ?_)
    rw [hcolon.numerals_cons (not_not.mp hmark) (fun _ => id) (by decide)]
    exact bodyItems_agrees hrest

/-- A return type holds no numeral. -/
theorem returns_agrees {function function' : Text} (h : AllCounterparts text text' ns ns') :
    Agrees [] (fun answer answer' => AllCounterparts text text' answer.2 answer'.2 ∧
        numeralsAll text' ns' = numeralsAll text' answer'.2)
      (returns (.ofText text) function ns) (returns (.ofText text') function' ns') := by
  unfold returns
  cases ns with
  | nil =>
    cases h.nil_eq
    exact .ok ⟨h, rfl⟩
  | cons n rest =>
    obtain ⟨n', rest', rfl, hn, hrest⟩ := h.exists_cons
    dsimp only
    rw [hn.kind_eq]
    refine .ite (fun hkind => ?_) (fun _ => .ok ⟨h, rfl⟩)
    refine (typeName_agrees hn hkind).next ?_
    rintro _ name ⟨rfl, hsilent⟩
    cases returnType? name with
    | none => exact .fail
    | some type =>
      refine .ok ⟨hrest, ?_⟩
      rw [numeralsAll, hsilent, List.nil_append]

theorem funcDef_agrees (h : Counterparts text text' n n') (hkind : n.kind = .functionDefinition) :
    Agrees (n'.numerals text')
      (fun _ f => Stmt.allOperands f.stmts = Numeral.operands text' (n'.numerals text'))
      (funcDef (.ofText text) n) (funcDef (.ofText text') n') := by
  obtain ⟨kind, start, stop, children⟩ := n
  obtain ⟨kind', start', stop', children'⟩ := n'
  cases h.kind_eq.trans hkind
  have hchildren := h.children
  rw [Node.numerals_of_gathers rfl]
  unfold funcDef
  dsimp only at hchildren ⊢
  cases children with
  | nil => exact .fail
  | cons word rest =>
    obtain ⟨word', rest', rfl, hword, hrest⟩ := hchildren.exists_cons
    dsimp only
    rw [hword.kind_eq]
    refine .ite (fun _ => .fail) (fun hdef => ?_)
    rw [hword.numerals_cons (not_not.mp hdef) (fun _ => id) (by decide)]
    cases rest with
    | nil => exact .fail
    | cons nameNode rest =>
      obtain ⟨nameNode', rest', rfl, hnameNode, hrest⟩ := hrest.exists_cons
      dsimp only
      rw [hnameNode.kind_eq]
      refine .ite (fun _ => .fail) (fun hname => ?_)
      rw [hnameNode.numerals_cons (not_not.mp hname) (fun _ => id) (by decide)]
      cases rest with
      | nil => exact .fail
      | cons list rest =>
        obtain ⟨list', rest', rfl, hlist, hrest⟩ := hrest.exists_cons
        dsimp only
        rw [hlist.kind_eq]
        refine .ite (fun _ => .fail) (fun hparams => ?_)
        refine (params_agrees hlist (not_not.mp hparams)).next ?_
        intro params params' hsilent
        rw [numeralsAll, hsilent, List.nil_append]
        refine (returns_agrees hrest).next ?_
        rintro ⟨type, rest⟩ ⟨type', rest'⟩ ⟨hrest, hsame⟩
        rw [hsame]
        cases rest with
        | nil => exact .fail
        | cons body rest =>
          obtain ⟨body', rest', rfl, hbody, hrest⟩ := hrest.exists_cons
          dsimp only
          rw [hbody.kind_eq]
          refine .ite (fun _ => .fail) (fun hblock => ?_)
          rw [numeralsAll]
          refine (funcBody_agrees hbody (not_not.mp hblock)).bind ?_
          intro _ items hitems
          refine (finished_agrees hrest).map ?_
          rintro - - rfl
          rw [numeralsAll, List.append_nil]
          exact hitems

/-! ## Programs -/

theorem items_agrees {defining : Bool} (h : AllCounterparts text text' ns ns') :
    Agrees (numeralsAll text' ns')
      (fun _ p => p.operands = Numeral.operands text' (numeralsAll text' ns') ∧
        (defining = false → p.functions = []))
      (items (.ofText text) defining ns) (items (.ofText text') defining ns') := by
  induction ns generalizing ns' defining with
  | nil =>
    cases h.nil_eq
    exact .ok ⟨rfl, fun _ => rfl⟩
  | cons n rest ih =>
    obtain ⟨n', rest', rfl, hn, hrest⟩ := h.exists_cons
    have hstmt : Agrees (numeralsAll text' (n' :: rest'))
        (fun _ p => p.operands = Numeral.operands text' (numeralsAll text' (n' :: rest')) ∧
          (defining = false → p.functions = []))
        (do
          let first ← stmt (.ofText text) n
          let others ← items (.ofText text) false rest
          pure { others with stmts := first :: others.stmts })
        (do
          let first ← stmt (.ofText text') n'
          let others ← items (.ofText text') false rest'
          pure { others with stmts := first :: others.stmts }) := by
      rw [numeralsAll]
      refine (stmt_agrees n hn).bind ?_
      intro _ s hs
      refine (ih hrest).map ?_
      rintro _ others ⟨hothers, hnone⟩
      -- No function comes after a statement, so that the numbers of the functions come first.
      have hfunctions := hnone rfl
      rw [Program.operands, hfunctions] at hothers
      refine ⟨?_, fun _ => hfunctions⟩
      rw [Program.operands, hfunctions, Stmt.allOperands, hs, Numeral.operands_append, ← hothers]
      rfl
    unfold items
    dsimp only
    rw [hn.kind_eq]
    refine .ite (fun hkind => ?_) (fun _ => ?_)
    · refine (isDefinition_agrees hn).next ?_
      rintro _ defines ⟨rfl, hstarts⟩
      cases defines with
      | false => exact hstmt
      | true =>
        cases defining with
        | false => exact .fail
        | true =>
          have hvariable : n.kind ≠ .functionDefinition := by
            rw [hkind]
            decide
          simp only [if_true, if_neg hvariable]
          rw [numeralsAll]
          refine (varDef_agrees hn hkind hstarts).bind ?_
          intro _ v hsilent
          refine (ih hrest).map ?_
          rintro _ others ⟨hothers, -⟩
          refine ⟨?_, fun hnot => by cases hnot⟩
          rw [Numeral.operands_append, hsilent]
          exact hothers
    · by_cases hkind : n.kind = .functionDefinition
      · simp only [hkind, decide_true, pure_bind, if_true]
        cases defining with
        | false => exact .fail
        | true =>
          simp only [if_true]
          rw [numeralsAll]
          refine (funcDef_agrees hn hkind).bind ?_
          intro _ f hf
          refine (ih hrest).map ?_
          rintro _ others ⟨hothers, -⟩
          refine ⟨?_, fun hnot => by cases hnot⟩
          rw [Numeral.operands_append, ← hf, ← hothers, Program.operands, Program.operands,
            List.flatMap_cons, List.append_assoc]
      · simp only [hkind, decide_false, pure_bind]
        exact hstmt

end Reading

/-- Of two trees with parallel children, if one is read as a program, then the other one is read as
a program exactly if its numerals fit; and then the program pushes its numerals. -/
theorem ofTree_agrees {text text' : Text} {tree tree' : Node} (hkind : tree'.kind = tree.kind)
    (h : AllCounterparts text text' tree.children tree'.children) :
    Reading.Agrees (tree'.numerals text')
      (fun _ p => p.operands = Numeral.operands text' (tree'.numerals text'))
      (ofTree text tree) (ofTree text' tree') := by
  unfold ofTree
  dsimp only
  rw [hkind]
  refine .ite (fun _ => .fail) (fun hscript => ?_)
  have hnumerals : tree'.numerals text' = numeralsAll text' tree'.children := by
    apply Node.numerals_of_gathers
    rw [hkind, not_not.mp hscript]
    rfl
  rw [hnumerals]
  intro p hp
  obtain ⟨hfits, hoperands⟩ := Reading.items_agrees h p hp
  exact ⟨hfits, fun p' hp' => (hoperands p' hp').1⟩

end WatCompiler.Program
