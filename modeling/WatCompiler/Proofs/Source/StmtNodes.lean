import WatCompiler.Proofs.Source.ExprNodes

/-!
# Nodes of written statements

From the node of a statement the statement is read again, with new positions (`StmtRead`). There is
one lemma for every sort of statement. The arms of a conditional lie side by side in its node, and
what is read from the second one on is the statement that the first one goes on with (`ArmsRead`).
-/

namespace WatCompiler

open SyntaxTree

namespace Source

open Program.Reading (textOf infoOf isDefinition)

variable {source : Text} {n : Node} {e : Expr Unit}

/-- The node is that of a statement, and it is read as the statement with other positions. -/
structure StmtRead (source : Text) (s : Stmt Unit) (n : Node) : Prop where
  notFunction : n.kind ≠ .functionDefinition
  notDefinition : n.kind = .assignStatement → isDefinition (.ofText source) n = .ok false
  stmt : ∃ s', Program.Reading.stmt (.ofText source) n = .ok s' ∧ s'.unplaced = s.unplaced

/-- The nodes are those of the arms of a conditional. -/
def ArmsRead (source : Text) (s : Stmt Unit) (ns : List Node) : Prop :=
  ns ≠ [] ∧ ∃ s', Program.Reading.arms (.ofText source) ns = .ok s' ∧ s'.unplaced = s.unplaced

/-- The nodes are those of the other arms of a conditional, if there are any. -/
def ElseRead (source : Text) : Option (Stmt Unit) → List Node → Prop
  | none, ns => ns = []
  | some s, ns => ArmsRead source s ns

/-- The node is that of a block. -/
structure BlockRead (source : Text) (stmts : List (Stmt Unit)) (n : Node) : Prop where
  kind : n.kind = .body
  block : ∃ stmts', Program.Reading.block (.ofText source) n = .ok stmts' ∧
    Stmt.allUnplaced stmts' = Stmt.allUnplaced stmts

/-- A target, the sign and a value are read as an assignment. -/
theorem stmtRead_assign {target : Text} {left right : Node} (info : Info Unit) (t : Token)
    (hleft : ReadsAs source (.ident info target) left) (hright : ReadsAs source e right) :
    StmtRead source (.assign info target e)
      (.branch .assignStatement left [.leaf .assignOp t, right]) := by
  obtain ⟨e', he', hunplaced⟩ := hright.expr
  have hkind : left.kind = .variableName := hleft.kind
  have htext : textOf (.ofText source) left = target := hleft.word target rfl
  refine ⟨nofun, fun _ => rfl, .assign (infoOf (.ofText source) left) target e', ?_,
    congrArg (Stmt.assign ⟨(), .unknown⟩ target) hunplaced⟩
  have hassignment : Program.Reading.assignment (.ofText source)
      (.branch .assignStatement left [.leaf .assignOp t, right]) =
      .ok (.assign (infoOf (.ofText source) left) target e') := by
    rw [Program.Reading.assignment, Node.branch]
    dsimp only
    rw [if_neg (fun h => h hkind), htext]
    show (Program.Reading.expr (.ofText source) right >>= _) = _
    rw [he']
    rfl
  rw [Node.branch, Program.Reading.stmt]
  exact hassignment

theorem stmtRead_expr (info : Info Unit) (h : ReadsAs source e n) :
    StmtRead source (.expr info e) (.branch .expressionStatement n []) := by
  obtain ⟨e', he', hunplaced⟩ := h.expr
  refine ⟨nofun, nofun, .expr (infoOf (.ofText source) n) e', ?_,
    congrArg (Stmt.expr ⟨(), .unknown⟩) hunplaced⟩
  rw [Node.branch, Program.Reading.stmt, he']
  rfl

theorem stmtRead_return (info : Info Unit) (t : Token) :
    StmtRead source (.ret info none) (.branch .returnStatement (.leaf (.keyword .return_) t) []) :=
  ⟨nofun, nofun, .ret (infoOf (.ofText source) (.leaf (.keyword .return_) t)) none, rfl, rfl⟩

/-- `return` with an expression behind it. -/
theorem stmtRead_returnValue (info : Info Unit) (t : Token) (h : ReadsAs source e n) :
    StmtRead source (.ret info (some e))
      (.branch .returnStatement (.leaf (.keyword .return_) t) [n]) := by
  obtain ⟨e', he', hunplaced⟩ := h.expr
  refine ⟨nofun, nofun,
    .ret (infoOf (.ofText source) (.leaf (.keyword .return_) t)) (some e'), ?_,
    congrArg (fun e => Stmt.ret ⟨(), .unknown⟩ (some e)) hunplaced⟩
  rw [Node.branch, Program.Reading.stmt]
  show (Program.Reading.expr (.ofText source) n >>= _) = _
  rw [he']
  rfl

theorem stmtRead_pass (info : Info Unit) (t : Token) :
    StmtRead source (.pass info) (.branch .passStatement (.leaf (.keyword .pass) t) []) :=
  ⟨nofun, nofun, .pass (infoOf (.ofText source) (.leaf (.keyword .pass) t)), rfl, rfl⟩

/-- Nodes that are read one by one are read as a list. -/
theorem stmtList_of_forall₂ {stmts : List (Stmt Unit)} {ns : List Node}
    (h : List.Forall₂ (StmtRead source) stmts ns) :
    ∃ stmts', Program.Reading.stmtList (.ofText source) ns = .ok stmts' ∧
      Stmt.allUnplaced stmts' = Stmt.allUnplaced stmts := by
  induction h with
  | nil => exact ⟨[], rfl, rfl⟩
  | cons hfirst _ ih =>
    obtain ⟨s', hs', hunplaced⟩ := hfirst.stmt
    obtain ⟨stmts', hstmts', hunplaced'⟩ := ih
    refine ⟨s' :: stmts', ?_, congrArg₂ List.cons hunplaced hunplaced'⟩
    rw [Program.Reading.stmtList, hs', hstmts']
    rfl

/-- A colon and at least one statement are read as a block. -/
theorem blockRead_of_forall₂ {stmts : List (Stmt Unit)} {ns : List Node} (colon : Token)
    (hne : stmts.isEmpty = false) (h : List.Forall₂ (StmtRead source) stmts ns) :
    BlockRead source stmts (.branch .body (.leaf (.op .colon) colon) ns) := by
  obtain ⟨stmts', hstmts', hunplaced⟩ := stmtList_of_forall₂ h
  have hne' : stmts'.isEmpty = false := by
    cases stmts with
    | nil => cases hne
    | cons s stmts =>
      cases stmts' with
      | nil => cases hunplaced
      | cons => rfl
  refine ⟨rfl, stmts', ?_, hunplaced⟩
  rw [Node.branch, Program.Reading.block, if_neg (fun h => h rfl), hstmts']
  dsimp only [bind, Except.bind]
  rw [hne']
  rfl

/-- A test and a block behind `while` are read as a loop. -/
theorem stmtRead_while {stmts : List (Stmt Unit)} {test body : Node} (info : Info Unit) (t : Token)
    (htest : ReadsAs source e test) (hbody : BlockRead source stmts body) :
    StmtRead source (.while_ info e stmts)
      (.branch .whileStatement (.leaf (.keyword .while_) t) [test, body]) := by
  obtain ⟨e', he', hunplaced⟩ := htest.expr
  obtain ⟨stmts', hstmts', hunplaced'⟩ := hbody.block
  have hkind : test.kind ≠ .body := by
    rw [htest.kind]
    exact e.nodeKind_ne.1
  refine ⟨nofun, nofun,
    .while_ (infoOf (.ofText source) (.leaf (.keyword .while_) t)) e' stmts', ?_,
    congrArg₂ (Stmt.while_ ⟨(), .unknown⟩) hunplaced hunplaced'⟩
  rw [Node.branch, Program.Reading.stmt, if_neg hkind, he']
  dsimp only [bind, Except.bind]
  rw [if_neg (fun h => h hbody.kind), hstmts']
  rfl

/-- The last arm has no test and nothing behind it. -/
theorem armsRead_else {stmts : List (Stmt Unit)} {body : Node} (info : Info Unit) (t : Token)
    (hbody : BlockRead source stmts body) :
    ArmsRead source (.cond info none stmts none) [.leaf (.keyword .else_) t, body] := by
  obtain ⟨stmts', hstmts', hunplaced⟩ := hbody.block
  refine ⟨List.cons_ne_nil _ _,
    .cond (infoOf (.ofText source) (.leaf (.keyword .else_) t)) none stmts' none, ?_,
    congrArg (Stmt.cond ⟨(), .unknown⟩ none · none) hunplaced⟩
  rw [Program.Reading.arms, Node.leaf_kind, if_pos rfl]
  dsimp only
  rw [if_neg (fun h => h hbody.kind), hstmts']
  rfl

/-- An arm with a test and the arms behind it, which are read already. -/
theorem armsRead_test {stmts : List (Stmt Unit)} {orElse : Option (Stmt Unit)} {test body : Node}
    {ns : List Node} {k : Keyword} (hk : k = .if_ ∨ k = .elif) (info : Info Unit) (t : Token)
    (htest : ReadsAs source e test) (hbody : BlockRead source stmts body)
    (helse : ElseRead source orElse ns) :
    ArmsRead source (.cond info (some e) stmts orElse)
      (.leaf (.keyword k) t :: test :: body :: ns) := by
  obtain ⟨e', he', hunplaced⟩ := htest.expr
  obtain ⟨stmts', hstmts', hunplaced'⟩ := hbody.block
  have hkind : test.kind ≠ .body := by
    rw [htest.kind]
    exact e.nodeKind_ne.1
  have hnotElse : Kind.keyword k ≠ .keyword .else_ := by
    rcases hk with rfl | rfl <;> decide
  have hword : Kind.keyword k = .keyword .if_ ∨ Kind.keyword k = .keyword .elif :=
    hk.imp (congrArg _) (congrArg _)
  rw [← Node.leaf_kind (.keyword k) t] at hnotElse hword
  have harms : Program.Reading.arms (.ofText source) (.leaf (.keyword k) t :: test :: body :: ns) =
      (if ns = [] then pure none else some <$> Program.Reading.arms (.ofText source) ns) >>=
        fun orElse => pure (.cond (infoOf (.ofText source) (.leaf (.keyword k) t)) (some e')
          stmts' orElse) := by
    conv => lhs; rw [Program.Reading.arms.eq_def]
    dsimp only
    rw [if_neg hnotElse, if_pos hword, if_neg hkind, he']
    dsimp only [bind, Except.bind]
    rw [if_neg (fun h => h hbody.kind), hstmts']
    cases ns with
    | nil => rfl
    | cons next others =>
      rw [if_neg (List.cons_ne_nil _ _)]
      dsimp only
      cases Program.Reading.arms (.ofText source) (next :: others) <;> rfl
  refine ⟨List.cons_ne_nil _ _, ?_⟩
  rw [harms]
  cases orElse with
  | none =>
    cases helse
    exact ⟨_, rfl, congrArg₂ (fun e stmts => Stmt.cond ⟨(), .unknown⟩ (some e) stmts none)
      hunplaced hunplaced'⟩
  | some s =>
    obtain ⟨hne, s', hs', hunplaced''⟩ := helse
    rw [if_neg hne, hs']
    refine ⟨_, rfl, ?_⟩
    simp only [Stmt.unplaced, Stmt.elseUnplaced, Option.map_some, hunplaced, hunplaced',
      hunplaced'']
    rfl

/-- The arms of a conditional are children of its node. -/
theorem stmtRead_if {s : Stmt Unit} {ns : List Node} (t : Token)
    (h : ArmsRead source s (.leaf (.keyword .if_) t :: ns)) :
    StmtRead source s (.branch .ifStatement (.leaf (.keyword .if_) t) ns) := by
  obtain ⟨-, s', hs', hunplaced⟩ := h
  refine ⟨nofun, nofun, s', ?_, hunplaced⟩
  rw [Node.branch, Program.Reading.stmt]
  exact hs'

end Source

end WatCompiler
