import WatCompiler.Proofs.Numerals.Expressions

/-!
# Numerals in statements

Two sources with parallel trees have the same definitions, assignments and other statements. A
statement is read exactly if its numerals fit, and it has the numbers of its node (`stmt_agrees`);
the initial value of a variable has to fit as well, but it is in no expression (`varDef_agrees`).
-/

namespace WatCompiler.Program.Reading

open SyntaxTree (Node Counterparts AllCounterparts numeralsAll definesVariable)

variable {text text' : Text} {n n' : Node} {ns ns' : List Node}

/-! ## Assignments and definitions -/

/-- The children of an assignment node start with a target and a type or an assignment operator. -/
def StartsAs (defines : Bool) (n n' : Node) : Prop :=
  ∃ target second rest target' second' rest', n.children = target :: second :: rest ∧
    n'.children = target' :: second' :: rest' ∧
      second.kind = if defines then .typeDef else .assignOp

/-- Counterparts are both definitions or both assignments. -/
theorem StartsAs.definesVariable_eq {defines : Bool} (hstarts : StartsAs defines n n')
    (h : Counterparts text text' n n') :
    definesVariable .assignStatement n'.children = defines := by
  obtain ⟨target, second, rest, target', second', rest', heq, heq', hkind⟩ := hstarts
  have hchildren := h.children
  rw [heq, heq'] at hchildren
  obtain ⟨_, _, hcons, -, hrest⟩ := hchildren.exists_cons
  cases hcons
  obtain ⟨_, _, hcons, hsecond, -⟩ := hrest.exists_cons
  cases hcons
  rw [heq', definesVariable, hsecond.kind_eq, hkind]
  cases defines <;> rfl

/-- The same nodes are definitions. -/
theorem isDefinition_agrees (h : Counterparts text text' n n') :
    Agrees [] (fun defines defines' => defines' = defines ∧ StartsAs defines n n')
      (isDefinition (.ofText text) n) (isDefinition (.ofText text') n') := by
  have hchildren := h.children
  unfold isDefinition
  match hcases : n.children with
  | [] => exact .fail
  | [target] => exact .fail
  | target :: second :: rest =>
    rw [hcases] at hchildren
    obtain ⟨target', _, heq, -, hrest⟩ := hchildren.exists_cons
    obtain ⟨second', rest', rfl, hsecond, -⟩ := hrest.exists_cons
    rw [heq]
    dsimp only
    rw [hsecond.kind_eq]
    cases hkind : second.kind with
    | typeDef => exact .ok ⟨rfl, target, second, rest, target', second', rest', hcases, heq, hkind⟩
    | assignOp => exact .ok ⟨rfl, target, second, rest, target', second', rest', hcases, heq, hkind⟩
    | _ => exact .fail

/-- The initial value of a variable is a literal, and it has to fit. -/
theorem varDef_agrees (h : Counterparts text text' n n') (hkind : n.kind = .assignStatement)
    (hstarts : StartsAs true n n') :
    Agrees (n'.numerals text') (fun _ _ => Numeral.operands text' (n'.numerals text') = [])
      (varDef (.ofText text) n) (varDef (.ofText text') n') := by
  rw [Node.numerals_of_definition (h.kind_eq.trans hkind) (hstarts.definesVariable_eq h),
    Numeral.operands_initial]
  -- A numeral fits whether or not it is marked as an initial value.
  refine Agrees.congr ?_ List.forall_mem_map
  obtain ⟨target, typeNode, rest, target', typeNode', rest', heq, heq', htype⟩ := hstarts
  have hchildren := h.children
  unfold varDef
  rw [heq, heq'] at hchildren ⊢
  obtain ⟨_, _, hcons, htarget, hrest⟩ := hchildren.exists_cons
  cases hcons
  obtain ⟨_, _, hcons, htypeNode, hrest⟩ := hrest.exists_cons
  cases hcons
  dsimp only
  rw [htarget.kind_eq]
  refine .ite (fun _ => .fail) (fun hname => ?_)
  rw [htarget.numerals_cons (not_not.mp hname) (fun _ => id) (by decide), numeralsAll]
  refine (typeName_agrees htypeNode htype).next ?_
  rintro _ typeText ⟨rfl, hsilent⟩
  rw [hsilent, List.nil_append]
  cases rest with
  | nil => exact .fail
  | cons op rest =>
    obtain ⟨op', rest', rfl, hop, hrest⟩ := hrest.exists_cons
    dsimp only
    rw [hop.kind_eq]
    refine .ite (fun _ => .fail) (fun hassign => ?_)
    rw [hop.numerals_cons (not_not.mp hassign) (fun _ => id) (by decide)]
    cases rest with
    | nil => exact .fail
    | cons init rest =>
      obtain ⟨init', rest', rfl, hinit, hrest⟩ := hrest.exists_cons
      rw [numeralsAll]
      refine (literal_agrees hinit).bind ?_
      intro value value' _
      rw [← List.append_nil (numeralsAll text' rest')]
      refine (finished_agrees hrest).bind ?_
      intro _ _ _
      cases variableType? typeText with
      | none => exact .fail
      | some type => exact .ok rfl

/-! ## Statements -/

/-- The statement of a node pushes its numerals. -/
def StmtOf (text' : Text) (n' : Node) (s : Stmt Unit) : Prop :=
  s.operands = Numeral.operands text' (n'.numerals text')

/-- The two nodes are read as statements if their numerals fit. -/
def StmtAgrees (text text' : Text) (n n' : Node) : Prop :=
  Agrees (n'.numerals text') (fun _ s => StmtOf text' n' s) (stmt (.ofText text) n)
    (stmt (.ofText text') n')

/-- A statement that ends with an expression, and pushes nothing but its numerals. -/
theorem lastExpr_agrees {value value' : Node} {make make' : Expr Unit → Stmt Unit}
    (hvalue : Counterparts text text' value value') (hrest : AllCounterparts text text' ns ns')
    (hmake : ∀ e, (make' e).operands = e.operands) :
    Agrees (numeralsAll text' (value' :: ns'))
      (fun _ s => s.operands = Numeral.operands text' (numeralsAll text' (value' :: ns')))
      (do
        let e ← expr (.ofText text) value
        finished (.ofText text) ns
        pure (make e))
      (do
        let e ← expr (.ofText text') value'
        finished (.ofText text') ns'
        pure (make' e)) := by
  rw [numeralsAll]
  refine (expr_agrees value hvalue).bind ?_
  intro _ e he
  refine (finished_agrees hrest).map ?_
  rintro - - rfl
  rw [hmake, he.operands, numeralsAll, List.append_nil]

/-- The numerals of an assignment are those of its value. -/
theorem assignment_agrees (h : Counterparts text text' n n') (hkind : n.kind = .assignStatement)
    (hstarts : StartsAs false n n') :
    Agrees (n'.numerals text') (fun _ s => StmtOf text' n' s) (assignment (.ofText text) n)
      (assignment (.ofText text') n') := by
  have hkind' := h.kind_eq.trans hkind
  have hnumerals : n'.numerals text' = numeralsAll text' n'.children := by
    apply Node.numerals_of_inner
    · rw [hkind']
      nofun
    · rw [hkind']
      rfl
    · rw [hkind']
      exact hstarts.definesVariable_eq h
  obtain ⟨target, op, rest, target', op', rest', heq, heq', hassign⟩ := hstarts
  have hchildren := h.children
  unfold assignment StmtOf
  rw [heq, heq'] at hchildren
  rw [hnumerals, heq, heq']
  obtain ⟨_, _, hcons, htarget, hrest⟩ := hchildren.exists_cons
  cases hcons
  obtain ⟨_, _, hcons, hop, hrest⟩ := hrest.exists_cons
  cases hcons
  dsimp only
  rw [htarget.kind_eq]
  refine .ite (fun _ => .fail) (fun hname => ?_)
  rw [htarget.numerals_cons (not_not.mp hname) (fun _ => id) (by decide),
    hop.numerals_cons hassign (fun _ => id) (by decide)]
  simp only [List.drop_one, List.tail_cons]
  cases rest with
  | nil => exact .fail
  | cons value rest =>
    obtain ⟨value', rest', rfl, hvalue, hrest⟩ := hrest.exists_cons
    exact lastExpr_agrees hvalue hrest fun _ => rfl

/-- Each statement with its own numerals. -/
theorem stmtList_agrees (h : AllCounterparts text text' ns ns')
    (hread : ∀ c ∈ ns, ∀ c', Counterparts text text' c c' → StmtAgrees text text' c c') :
    Agrees (numeralsAll text' ns')
      (fun body body' => body'.isEmpty = body.isEmpty ∧
        Stmt.allOperands body' = Numeral.operands text' (numeralsAll text' ns'))
      (stmtList (.ofText text) ns) (stmtList (.ofText text') ns') := by
  induction ns generalizing ns' with
  | nil =>
    cases h.nil_eq
    exact .ok ⟨rfl, rfl⟩
  | cons n rest ih =>
    obtain ⟨n', rest', rfl, hn, hrest⟩ := h.exists_cons
    unfold stmtList
    rw [numeralsAll]
    refine (hread n List.mem_cons_self n' hn).bind ?_
    intro _ s hs
    refine (ih hrest fun c hc => hread c (List.mem_cons_of_mem _ hc)).map ?_
    rintro _ body ⟨-, hbody⟩
    refine ⟨rfl, ?_⟩
    rw [Stmt.allOperands, hs, hbody, Numeral.operands_append]

/-- The numerals of a block are those of its statements. -/
theorem block_agrees (h : Counterparts text text' n n') (hkind : n.kind = .body)
    (hread : ∀ c ∈ n.children, ∀ c', Counterparts text text' c c' → StmtAgrees text text' c c') :
    Agrees (n'.numerals text')
      (fun _ body => Stmt.allOperands body = Numeral.operands text' (n'.numerals text'))
      (block (.ofText text) n) (block (.ofText text') n') := by
  obtain ⟨kind, start, stop, children⟩ := n
  obtain ⟨kind', start', stop', children'⟩ := n'
  cases h.kind_eq.trans hkind
  have hchildren := h.children
  rw [Node.numerals_of_gathers rfl]
  unfold block
  dsimp only at hchildren hread ⊢
  cases children with
  | nil => exact .fail
  | cons colon rest =>
    obtain ⟨colon', rest', rfl, hcolon, hrest⟩ := hchildren.exists_cons
    dsimp only
    rw [hcolon.kind_eq]
    refine .ite (fun _ => .fail) (fun hmark => ?_)
    rw [hcolon.numerals_cons (not_not.mp hmark) (fun _ => id) (by decide),
      ← List.append_nil (numeralsAll text' rest')]
    refine (stmtList_agrees hrest fun c hc => hread c (List.mem_cons_of_mem _ hc)).bind ?_
    rintro body body' ⟨hempty, hbody⟩
    -- Both blocks are refused if they are empty, so it matters that they are empty together.
    rw [hempty, List.append_nil]
    refine .ite (fun _ => .fail) (fun _ => .ok hbody)

/-- The arms of a conditional. -/
theorem arms_agrees :
    ∀ {ns ns' : List Node}, AllCounterparts text text' ns ns' →
      (∀ b ∈ ns, ∀ c ∈ b.children, ∀ c', Counterparts text text' c c' →
        StmtAgrees text text' c c') →
      Agrees (numeralsAll text' ns')
        (fun _ s => s.operands = Numeral.operands text' (numeralsAll text' ns'))
        (arms (.ofText text) ns) (arms (.ofText text') ns')
  | [], _, _, _ => by
    unfold arms
    exact .fail
  | word :: rest, ns', h, hread => by
    obtain ⟨word', rest', rfl, hword, hrest⟩ := h.exists_cons
    unfold arms
    rw [hword.kind_eq]
    refine .ite (fun helse => ?_) (fun _ => .ite (fun hif => ?_) (fun _ => .fail))
    · rw [hword.numerals_cons helse (fun _ => id) (by decide)]
      cases rest with
      | nil => exact .fail
      | cons body rest =>
        obtain ⟨body', rest', rfl, hbody, hrest⟩ := hrest.exists_cons
        dsimp only
        rw [hbody.kind_eq]
        refine .ite (fun _ => .fail) (fun hblock => ?_)
        rw [numeralsAll]
        refine (block_agrees hbody (not_not.mp hblock) (hread body (by simp))).bind ?_
        intro _ stmts hstmts
        cases rest with
        | nil =>
          cases hrest.nil_eq
          refine .ok ?_
          rw [Stmt.operands, hstmts, numeralsAll, List.append_nil]
        | cons next others => exact .fail
    · have hskip : numeralsAll text' (word' :: rest') = numeralsAll text' rest' := by
        rcases hif with hif | hif
        · exact hword.numerals_cons hif (fun _ => id) (by decide)
        · exact hword.numerals_cons hif (fun _ => id) (by decide)
      rw [hskip]
      cases rest with
      | nil => exact .fail
      | cons test rest =>
        obtain ⟨test', rest', rfl, htest, hrest⟩ := hrest.exists_cons
        dsimp only
        rw [htest.kind_eq]
        refine .ite (fun _ => .fail) (fun _ => ?_)
        rw [numeralsAll]
        refine (expr_agrees test htest).bind ?_
        intro _ e he
        cases rest with
        | nil => exact .fail
        | cons body rest =>
          obtain ⟨body', rest', rfl, hbody, hrest⟩ := hrest.exists_cons
          dsimp only
          rw [hbody.kind_eq]
          refine .ite (fun _ => .fail) (fun hblock => ?_)
          rw [numeralsAll]
          refine (block_agrees hbody (not_not.mp hblock) (hread body (by simp))).bind ?_
          intro _ stmts hstmts
          cases rest with
          | nil =>
            cases hrest.nil_eq
            refine .ok ?_
            rw [Stmt.operands, he.operands, hstmts, Numeral.operands_append,
              Numeral.operands_append]
            rfl
          | cons next others =>
            have hmore : ∀ b ∈ next :: others, ∀ c ∈ b.children, ∀ c',
                Counterparts text text' c c' →
                StmtAgrees text text' c c' := fun b hb =>
              hread b (List.mem_cons_of_mem _ (List.mem_cons_of_mem _ (List.mem_cons_of_mem _ hb)))
            obtain ⟨next', others', rfl, -, -⟩ := hrest.exists_cons
            refine (arms_agrees hrest hmore).map ?_
            intro _ orElse horElse
            rw [Stmt.operands, Stmt.armOperands, he.operands, hstmts, horElse,
              Numeral.operands_append,
              Numeral.operands_append]
termination_by ns => ns.length
decreasing_by
  subst_vars
  simp only [List.length_cons]
  omega

section

variable {start stop : Nat} {children : List Node}

theorem expressionStatement_agrees
    (h : Counterparts text text' ⟨.expressionStatement, start, stop, children⟩ n') :
    StmtAgrees text text' ⟨.expressionStatement, start, stop, children⟩ n' := by
  obtain ⟨kind', start', stop', children'⟩ := n'
  cases h.kind_eq
  have hchildren := h.children
  unfold StmtAgrees StmtOf stmt
  rw [Node.numerals_of_gathers rfl]
  dsimp only at hchildren ⊢
  cases children with
  | nil => exact .fail
  | cons value rest =>
    obtain ⟨value', rest', rfl, hvalue, hrest⟩ := hchildren.exists_cons
    exact lastExpr_agrees hvalue hrest fun _ => rfl

/-- The numerals of a return are those of its value, if it has one. -/
theorem returnStatement_agrees
    (h : Counterparts text text' ⟨.returnStatement, start, stop, children⟩ n') :
    StmtAgrees text text' ⟨.returnStatement, start, stop, children⟩ n' := by
  obtain ⟨kind', start', stop', children'⟩ := n'
  cases h.kind_eq
  obtain ⟨-, -, hfirst⟩ := h.shaped.inner rfl fun _ => id
  obtain ⟨word, hhead, hkeyword⟩ := Option.map_eq_some_iff.mp hfirst
  obtain ⟨rest, rfl⟩ := List.head?_eq_some_iff.mp hhead
  obtain ⟨word', rest', hcons, hword, hrest⟩ := h.children.exists_cons
  cases hcons
  unfold StmtAgrees StmtOf stmt
  rw [Node.numerals_of_gathers rfl, hword.numerals_cons hkeyword (fun _ => id) (by decide)]
  simp only [List.drop_one, List.tail_cons]
  cases rest with
  | nil =>
    cases hrest.nil_eq
    exact .ok rfl
  | cons value rest =>
    obtain ⟨value', rest', rfl, hvalue, hrest⟩ := hrest.exists_cons
    exact lastExpr_agrees hvalue hrest fun _ => rfl

/-- The numerals of a loop: those of its test, then those of its block. -/
theorem whileStatement_agrees
    (h : Counterparts text text' ⟨.whileStatement, start, stop, children⟩ n')
    (hread : ∀ b ∈ children, ∀ c ∈ b.children, ∀ c', Counterparts text text' c c' →
      StmtAgrees text text' c c') :
    StmtAgrees text text' ⟨.whileStatement, start, stop, children⟩ n' := by
  obtain ⟨kind', start', stop', children'⟩ := n'
  cases h.kind_eq
  obtain ⟨-, -, hfirst⟩ := h.shaped.inner rfl fun _ => id
  obtain ⟨word, hhead, hkeyword⟩ := Option.map_eq_some_iff.mp hfirst
  obtain ⟨rest, rfl⟩ := List.head?_eq_some_iff.mp hhead
  obtain ⟨word', rest', hcons, hword, hrest⟩ := h.children.exists_cons
  cases hcons
  unfold StmtAgrees StmtOf stmt
  rw [Node.numerals_of_gathers rfl, hword.numerals_cons hkeyword (fun _ => id) (by decide)]
  cases rest with
  | nil => exact .fail
  | cons test rest =>
    obtain ⟨test', rest', rfl, htest, hrest⟩ := hrest.exists_cons
    dsimp only
    rw [htest.kind_eq]
    refine .ite (fun _ => .fail) (fun _ => ?_)
    rw [numeralsAll]
    refine (expr_agrees test htest).bind ?_
    intro _ e he
    cases rest with
    | nil => exact .fail
    | cons body rest =>
      obtain ⟨body', rest', rfl, hbody, hrest⟩ := hrest.exists_cons
      dsimp only
      rw [hbody.kind_eq]
      refine .ite (fun _ => .fail) (fun hblock => ?_)
      rw [numeralsAll]
      refine (block_agrees hbody (not_not.mp hblock) (hread body (by simp))).bind ?_
      intro _ stmts hstmts
      refine (finished_agrees hrest).map ?_
      rintro - - rfl
      rw [Stmt.operands, he.operands, hstmts, numeralsAll, List.append_nil, Numeral.operands_append]

theorem passStatement_agrees
    (h : Counterparts text text' ⟨.passStatement, start, stop, children⟩ n') :
    StmtAgrees text text' ⟨.passStatement, start, stop, children⟩ n' := by
  obtain ⟨kind', start', stop', children'⟩ := n'
  cases h.kind_eq
  obtain ⟨-, -, hkinds⟩ := h.shaped.inner rfl fun _ => id
  obtain ⟨word, rest, rfl, hkeyword, hrest⟩ := List.map_eq_cons_iff.mp hkinds
  cases List.map_eq_nil_iff.mp hrest
  obtain ⟨word', rest', hcons, hword, hrest⟩ := h.children.exists_cons
  cases hcons
  cases hrest.nil_eq
  unfold StmtAgrees StmtOf stmt
  rw [Node.numerals_of_gathers rfl, hword.numerals_cons hkeyword (fun _ => id) (by decide)]
  exact .ok rfl

theorem assignStatement_agrees
    (h : Counterparts text text' ⟨.assignStatement, start, stop, children⟩ n') :
    StmtAgrees text text' ⟨.assignStatement, start, stop, children⟩ n' := by
  obtain ⟨kind', start', stop', children'⟩ := n'
  cases h.kind_eq
  unfold StmtAgrees stmt
  refine (isDefinition_agrees h).next ?_
  rintro _ defines ⟨rfl, hstarts⟩
  cases defines with
  | true => exact .fail
  | false => exact assignment_agrees h rfl hstarts

end

/-- A statement is read exactly if its counterpart's numerals fit, with their values as its
operands. -/
theorem stmt_agrees (n : Node) {n' : Node} (h : Counterparts text text' n n') :
    StmtAgrees text text' n n' := by
  -- The statements of a block are children of a child, so the induction is on the size.
  induction hsize : sizeOf n using Nat.strongRecOn generalizing n n' with
  | ind size ih =>
    subst hsize
    have hread : ∀ b ∈ n.children, ∀ c ∈ b.children, ∀ c', Counterparts text text' c c' →
        StmtAgrees text text' c c' := fun b hb c hc c' hc' =>
      ih _ (Nat.lt_trans (sizeOf_lt_of_mem hc) (sizeOf_lt_of_mem hb)) c hc' rfl
    obtain ⟨kind, start, stop, children⟩ := n
    cases kind with
    | assignStatement => exact assignStatement_agrees h
    | expressionStatement => exact expressionStatement_agrees h
    | returnStatement => exact returnStatement_agrees h
    | whileStatement => exact whileStatement_agrees h hread
    | passStatement => exact passStatement_agrees h
    | ifStatement =>
      obtain ⟨kind', start', stop', children'⟩ := n'
      cases h.kind_eq
      unfold StmtAgrees StmtOf stmt
      rw [Node.numerals_of_gathers rfl]
      exact arms_agrees h.children hread
    | _ =>
      unfold StmtAgrees stmt
      exact .fail

end WatCompiler.Program.Reading
