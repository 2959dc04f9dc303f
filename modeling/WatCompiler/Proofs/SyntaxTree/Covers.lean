import WatCompiler.Proofs.Basic
import WatCompiler.SyntaxTree.Statement

/-!
# Trees cover their tokens

A list of nodes covers a list of tokens when its leaves are those tokens, from left to right, but
for the tokens that only show the line structure. The kind of a leaf agrees with the sort of its
token, and the children of an inner node are such as nodes of its kind have. Main statements: every
rule of the grammar reads a stretch of tokens that its nodes cover, so that the tree of a source
covers its tokens up to the end of input (`covers_of_parse`); and where a rule fails it fails at one
of its tokens (`failsIn_of_ofTokens`), never for want of depth (`ne_nestedTooDeeply_of_parse`).
-/

namespace WatCompiler.SyntaxTree

/-- Tokens that only show the line structure. -/
def isLayout : Token.Kind → Bool
  | .endOfInput | .newline | .indent | .dedent => true
  | _ => false

namespace Kind

/-- The sorts of tokens that leaves of a kind stand for. No token is an inner node. -/
def takes : Kind → Token.Kind → Bool
  | variableName, t | propertyName, t => t = .ident
  | number, t => t = .int
  | string, t => t = .string
  | boolean, t => t = .keyword .true || t = .keyword .false
  | none, t => t = .keyword .none
  | assignOp, t => t = .op .assign
  | arithOp, .op _ | compareOp, .op _ | bitOp, .op _ => true
  | lexeme spelling, .keyword k => spelling = k.text
  | lexeme spelling, .op o => spelling = o.text
  | _, _ => false

/-- A keyword or a punctuation mark. -/
def isLexeme : Kind → Bool
  | lexeme _ => true
  | _ => false

/-- The children that inner nodes of a kind have. Only what the kinds of the children cannot tell is
said here. -/
def Admits : Kind → List Node → Prop
  | binaryExpression, ns => ∃ lhs op rhs, ns = [lhs, op, rhs] ∧ op.children = []
  | unaryExpression, ns => ∃ op arg, ns = [op, arg] ∧ op.children = []
  | parenthesizedExpression, ns | argList, ns => 2 ≤ ns.length
  | passStatement, ns => ns.map Node.kind = [.keyword .pass]
  | returnStatement, ns => ns.head?.map Node.kind = some (.keyword .return_)
  | whileStatement, ns => ns.head?.map Node.kind = some (.keyword .while_)
  | ifStatement, ns =>
    ∃ word rest, ns = word :: rest ∧ word.kind = .keyword .if_ ∧
      ∀ n ∈ rest, n.kind ≠ .keyword .if_
  | variableName, _ | propertyName, _ | number, _ | string, _ | boolean, _ | none, _
  | assignOp, _ | arithOp, _ | compareOp, _ | bitOp, _ | lexeme _, _ => False
  | _, _ => True

end Kind

/-- The nodes have the tokens as their leaves. -/
inductive Covers : List Token → List Node → Prop
  | nil : Covers [] []
  | layout {t : Token} {ts : List Token} {ns : List Node} (silent : isLayout t.kind = true)
      (rest : Covers ts ns) : Covers (t :: ts) ns
  | leaf {kind : Kind} {t : Token} {ts : List Token} {ns : List Node}
      (agrees : kind.takes t.kind = true) (rest : Covers ts ns) :
      Covers (t :: ts) (.leaf kind t :: ns)
  | branch {kind : Kind} {inner ts : List Token} {first : Node} {more ns : List Node}
      (admits : kind.Admits (first :: more)) (inside : Covers inner (first :: more))
      (rest : Covers ts ns) : Covers (inner ++ ts) (.branch kind first more :: ns)

/-- Nodes side by side cover the tokens side by side. -/
theorem Covers.append {ts us : List Token} {ns ms : List Node} (h : Covers ts ns)
    (h' : Covers us ms) : Covers (ts ++ us) (ns ++ ms) := by
  induction h with
  | nil => exact h'
  | layout silent _ ih => exact .layout silent ih
  | leaf agrees _ ih => exact .leaf agrees ih
  | branch admits inside _ _ ih =>
    rw [List.append_assoc]
    exact .branch admits inside ih

/-- A node covers at least one token. -/
theorem Covers.length_pos {ts : List Token} {ns : List Node} (h : Covers ts ns) (hne : ns ≠ []) :
    0 < ts.length := by
  induction h with
  | nil => exact absurd rfl hne
  | layout | leaf => exact Nat.succ_pos _
  | branch _ _ _ ih =>
    rw [List.length_append]
    exact Nat.add_pos_left (ih (List.cons_ne_nil _ _)) _

/-- From `ts` on, a rule reads the tokens before `rest`, and the nodes cover them. -/
def CoversUpTo (ts rest : List Token) (ns : List Node) : Prop :=
  ∃ used, ts = used ++ rest ∧ Covers used ns

namespace CoversUpTo

variable {ts us rest : List Token} {t : Token} {ns ms : List Node}

/-- No nodes cover no tokens. -/
theorem nothing (ts : List Token) : CoversUpTo ts ts [] := ⟨[], rfl, .nil⟩

/-- What is covered up to a place and from there on is covered as a whole. -/
theorem append (h : CoversUpTo ts us ns) (h' : CoversUpTo us rest ms) :
    CoversUpTo ts rest (ns ++ ms) := by
  obtain ⟨used, rfl, hcovers⟩ := h
  obtain ⟨used', rfl, hcovers'⟩ := h'
  exact ⟨used ++ used', (List.append_assoc _ _ _).symm, hcovers.append hcovers'⟩

/-- A node and then others. -/
theorem cons {n : Node} (h : CoversUpTo ts us [n]) (h' : CoversUpTo us rest ms) :
    CoversUpTo ts rest (n :: ms) :=
  h.append h'

/-- A line end or a margin needs no node. -/
theorem layout (silent : isLayout t.kind = true) : CoversUpTo (t :: ts) ts [] :=
  ⟨[t], rfl, .layout silent .nil⟩

/-- A token of a known sort. -/
theorem leaf {kind : Kind} {sort : Token.Kind} (hsort : t.kind = sort)
    (agrees : kind.takes sort = true) : CoversUpTo (t :: ts) ts [.leaf kind t] :=
  ⟨[t], rfl, .leaf (hsort ▸ agrees) .nil⟩

/-- A node that admits its children covers what they cover. -/
theorem branch {kind : Kind} {first : Node} {more : List Node}
    (admits : kind.Admits (first :: more)) (h : CoversUpTo ts rest (first :: more)) :
    CoversUpTo ts rest [.branch kind first more] := by
  obtain ⟨used, rfl, hcovers⟩ := h
  refine ⟨used, rfl, ?_⟩
  have hbranch := Covers.branch admits hcovers .nil
  rwa [List.append_nil] at hbranch

/-- What is left are some of the tokens. -/
theorem subset (h : CoversUpTo ts rest ns) : rest ⊆ ts := by
  obtain ⟨used, rfl, -⟩ := h
  exact List.subset_append_right used rest

/-- A node takes a token at least. -/
theorem length_lt {n : Node} (h : CoversUpTo ts rest (n :: ns)) : rest.length < ts.length := by
  obtain ⟨used, rfl, hcovers⟩ := h
  have hpos := hcovers.length_pos (List.cons_ne_nil n ns)
  rw [List.length_append]
  omega

end CoversUpTo

/-- The rule failed at one of the tokens, or at the start of the source, and not for want of
depth. -/
structure FailsIn (ts : List Token) (failure : Failure) : Prop where
  place : failure.offset = 0 ∨ ∃ t ∈ ts, failure.offset = t.start
  fault : failure.fault ≠ .nestedTooDeeply

/-- A fault among some tokens is one among more of them. -/
theorem FailsIn.mono {ts us : List Token} {failure : Failure} (h : FailsIn us failure)
    (hus : us ⊆ ts) : FailsIn ts failure := by
  obtain ⟨hplace, hfault⟩ := h
  exact ⟨hplace.imp_right fun ⟨t, ht, heq⟩ => ⟨t, hus ht, heq⟩, hfault⟩

/-- What a rule makes of the tokens `ts`: it reads the nodes of its answer, which is good, or it
fails at one of the tokens. -/
def Parses {α : Type} (ts : List Token) (nodes : α → List Node) (good : α → Prop) :
    Except Failure (WithRest α) → Prop
  | .ok (a, rest) => CoversUpTo ts rest (nodes a) ∧ good a
  | .error failure => FailsIn ts failure

namespace Parses

variable {α β : Type} {ts us rest : List Token} {nodes : α → List Node} {good : α → Prop}

/-- A fault other than exhausted depth. -/
theorem fail {fault : Fault} (hfault : decide (fault = .nestedTooDeeply) = false) (hus : us ⊆ ts) :
    Parses ts nodes good (fail us fault) := by
  refine ⟨?_, of_decide_eq_false hfault⟩
  cases us with
  | nil => exact Or.inl rfl
  | cons t us => exact Or.inr ⟨t, hus List.mem_cons_self, rfl⟩

/-- A token that cannot stand where it does. -/
theorem unexpected (hus : us ⊆ ts) : Parses ts nodes good (unexpected us) := .fail rfl hus

/-- A rule for what is left, and what is done with its answer. -/
theorem bind {nodes' : β → List Node} {good' : β → Prop} {x : Except Failure (WithRest α)}
    {f : WithRest α → Except Failure (WithRest β)} (hus : us ⊆ ts) (h : Parses us nodes good x)
    (hf : ∀ a rest, CoversUpTo us rest (nodes a) → good a → Parses ts nodes' good' (f (a, rest))) :
    Parses ts nodes' good' (x >>= f) := by
  match x, h with
  | .ok (a, rest), ⟨hcovers, hgood⟩ => exact hf a rest hcovers hgood
  | .error failure, hfails => exact hfails.mono hus

end Parses

/-- The node of a rule that reads one. -/
def single (n : Node) : List Node := [n]

/-- The node is no keyword and no punctuation mark. -/
def IsPhrase (n : Node) : Prop := n.kind.isLexeme = false

/-- Any answer. -/
def anything {α : Type} (_ : α) : Prop := True

/-! ## Depth -/

/-- The depth suffices for the tokens: six rules for each of them, and `rank` more. -/
def Suffices (bound rank : Nat) (ts : List Token) : Prop := 6 * ts.length + rank ≤ bound

namespace Suffices

variable {bound rank : Nat} {ts us : List Token}

/-- The depth that parsing starts with suffices. -/
theorem depthBound (ts : List Token) (hrank : rank ≤ 6) : Suffices (depthBound ts) rank ts :=
  Nat.add_le_add_left hrank _

/-- A depth that suffices is not exhausted. -/
theorem not_zero (h : Suffices 0 (rank + 1) ts) : False := by
  unfold Suffices at h
  omega

/-- A rule that starts with another one. -/
theorem first (h : Suffices (bound + 1) (rank + 1) ts) : Suffices bound rank ts :=
  Nat.le_of_succ_le_succ h

/-- A rule for what is left behind a token. -/
theorem later {rank' : Nat} (h : Suffices (bound + 1) rank ts) (hlt : us.length < ts.length)
    (hrank : rank' ≤ 5) : Suffices bound rank' us := by
  unfold Suffices at h ⊢
  omega

/-- Behind a token, any rule has enough depth one level down. -/
theorem tail {t : Token} {rank' : Nat} (h : Suffices (bound + 1) rank (t :: ts))
    (hrank : rank' ≤ 5) : Suffices bound rank' ts :=
  h.later (Nat.lt_succ_self _) hrank

end Suffices

/-! ## Expressions -/

/-- The leaf of an operator before or between operands is one for its token. -/
theorem takes_operatorKind {kind : Token.Kind}
    (h : (Level.ofBinary? kind).isSome = true ∨ (Level.ofUnary? kind).isSome = true) :
    (operatorKind kind).takes kind = true := by
  cases kind with
  | keyword k => exact decide_eq_true rfl
  | op o => cases o <;> rfl
  | _ => rcases h with h | h <;> cases h

/-- A literal or a name is a leaf of its kind. -/
theorem takes_of_operandKind? {sort : Token.Kind} {kind : Kind}
    (h : operandKind? sort = some kind) : kind.takes sort = true ∧ kind.isLexeme = false := by
  cases sort with
  | keyword k => cases k <;> cases h <;> decide
  | ident | int | string =>
    cases h
    decide
  | _ => cases h

/-- What the rules for expressions do, at a given depth that suffices. -/
structure ExpressionRules (bound : Nat) : Prop where
  expressionAt : ∀ level ts, Suffices bound 3 ts →
    Parses ts single IsPhrase (expressionAt bound level ts)
  operators : ∀ {level left whole ts}, CoversUpTo whole ts [left] → IsPhrase left →
    Suffices bound 1 ts → Parses whole single IsPhrase (operators bound level left ts)
  unary : ∀ ts, Suffices bound 2 ts → Parses ts single IsPhrase (unary bound ts)
  suffixes : ∀ {operand whole ts}, CoversUpTo whole ts [operand] → IsPhrase operand →
    Suffices bound 1 ts → Parses whole single IsPhrase (suffixes bound operand ts)
  arguments : ∀ ts, Suffices bound 4 ts → Parses ts id (· ≠ []) (arguments bound ts)
  assigned : ∀ ts, Suffices bound 1 ts → Parses ts id anything (assigned bound ts)
  primary : ∀ ts, Suffices bound 1 ts → Parses ts single IsPhrase (primary bound ts)

/-- Without any depth no bound suffices. -/
theorem expressionRules_zero : ExpressionRules 0 where
  expressionAt _ _ h := h.not_zero.elim
  operators _ _ h := h.not_zero.elim
  unary _ h := h.not_zero.elim
  suffixes _ _ h := h.not_zero.elim
  arguments _ h := h.not_zero.elim
  assigned _ h := h.not_zero.elim
  primary _ h := h.not_zero.elim

section

variable {bound : Nat} {ts : List Token}

/-- Binary operators behind a phrase, as long as they bind tightly enough. -/
theorem operators_parses (rules : ExpressionRules bound) {level : Nat} {left : Node}
    {whole : List Token} (hleft : CoversUpTo whole ts [left]) (hphrase : IsPhrase left)
    (hbound : Suffices (bound + 1) 1 ts) :
    Parses whole single IsPhrase (operators (bound + 1) level left ts) := by
  unfold operators
  split
  · exact ⟨hleft, hphrase⟩
  · next t after =>
    split
    · exact ⟨hleft, hphrase⟩
    · next found hfound =>
      split
      · exact ⟨hleft, hphrase⟩
      · have hop : CoversUpTo (t :: after) after [.leaf (operatorKind t.kind) t] :=
          .leaf rfl (takes_operatorKind (Or.inl (by rw [hfound]; rfl)))
        refine .bind (hleft.append hop).subset
          (rules.expressionAt _ after (hbound.tail (by decide))) ?_
        intro right us hright _
        have hmore := hop.cons hright
        exact rules.operators (.branch ⟨_, _, _, rfl, rfl⟩ (hleft.cons hmore)) rfl
          (hbound.later hmore.length_lt (by decide))

/-- A unary operator and its operand, or an operand with suffixes. -/
theorem unary_parses (rules : ExpressionRules bound) (ts : List Token)
    (hbound : Suffices (bound + 1) 2 ts) : Parses ts single IsPhrase (unary (bound + 1) ts) := by
  unfold unary
  split
  · exact .unexpected (List.Subset.refl _)
  · next t after =>
    split
    · next level hlevel =>
      have hop : CoversUpTo (t :: after) after [.leaf (operatorKind t.kind) t] :=
        .leaf rfl (takes_operatorKind (Or.inr (by rw [hlevel]; rfl)))
      refine .bind hop.subset (rules.expressionAt _ after (hbound.tail (by decide))) ?_
      intro operand us hoperand _
      exact ⟨.branch ⟨_, _, rfl, rfl⟩ (hop.cons hoperand), rfl⟩
    · refine .bind (List.Subset.refl _) (rules.primary (t :: after) hbound.first) ?_
      intro operand us hoperand hphrase
      exact rules.suffixes hoperand hphrase (hbound.later hoperand.length_lt (by decide))

/-- Calls and attributes behind an operand. -/
theorem suffixes_parses (rules : ExpressionRules bound) {operand : Node} {whole : List Token}
    (hoperand : CoversUpTo whole ts [operand]) (hphrase : IsPhrase operand)
    (hbound : Suffices (bound + 1) 1 ts) :
    Parses whole single IsPhrase (suffixes (bound + 1) operand ts) := by
  unfold suffixes
  split
  · exact ⟨hoperand, hphrase⟩
  · next t after =>
    split
    · next hparen =>
      have hopen : CoversUpTo (t :: after) after [.leaf (.op .leftParen) t] := .leaf hparen rfl
      refine .bind (hoperand.append hopen).subset
        (rules.arguments after (hbound.tail (by decide))) ?_
      intro args us hargs hne
      have htwo : 2 ≤ (Node.leaf (.op .leftParen) t :: args).length :=
        Nat.succ_le_succ (List.length_pos_iff.mpr hne)
      have hlist : CoversUpTo (t :: after) us [.branch .argList (.leaf (.op .leftParen) t) args] :=
        .branch htwo (hopen.cons hargs)
      exact rules.suffixes (.branch trivial (hoperand.cons hlist)) rfl
        (hbound.later hlist.length_lt (by decide))
    split
    · next hdot =>
      have hmark : CoversUpTo (t :: after) after [.leaf (.op .dot) t] := .leaf hdot rfl
      split
      · exact .fail rfl (hoperand.append hmark).subset
      · next name us =>
        split
        · next hname =>
          have hlast : CoversUpTo (name :: us) us [.leaf .propertyName name] := .leaf hname rfl
          have haccess := hmark.cons hlast
          exact rules.suffixes (.branch trivial (hoperand.cons haccess)) rfl
            (hbound.later haccess.length_lt (by decide))
        · exact .fail rfl (hoperand.append hmark).subset
    · exact ⟨hoperand, hphrase⟩

/-- The arguments of a call and the parenthesis that closes them. -/
theorem arguments_parses (rules : ExpressionRules bound) (ts : List Token)
    (hbound : Suffices (bound + 1) 4 ts) : Parses ts id (· ≠ []) (arguments (bound + 1) ts) := by
  unfold arguments
  split
  · exact .unexpected (List.Subset.refl _)
  · next t after =>
    split
    · next hclose => exact ⟨.leaf hclose rfl, List.cons_ne_nil _ _⟩
    · refine .bind (List.Subset.refl _) (rules.expressionAt _ (t :: after) hbound.first) ?_
      intro value us hvalue _
      refine .bind hvalue.subset
        (rules.assigned us (hbound.later hvalue.length_lt (by decide))) ?_
      intro named vs hnamed _
      have hfirst := hvalue.cons hnamed
      dsimp only
      split
      · exact .fail rfl hfirst.subset
      · next s after =>
        split
        · next hcomma =>
          have hmark : CoversUpTo (s :: after) after [.leaf (.op .comma) s] := .leaf hcomma rfl
          refine .bind (hfirst.append hmark).subset
            (rules.arguments after (hbound.later (hfirst.append hmark).length_lt (by decide))) ?_
          intro more ws hmore _
          exact ⟨hfirst.append (hmark.cons hmore), List.cons_ne_nil _ _⟩
        split
        · refine .bind hfirst.subset
            (rules.arguments (s :: after) (hbound.later hfirst.length_lt (by decide))) ?_
          intro more ws hmore _
          exact ⟨hfirst.append hmore, List.cons_ne_nil _ _⟩
        · exact .fail rfl hfirst.subset

/-- An equals sign and a value, if they follow. -/
theorem assigned_parses (rules : ExpressionRules bound) (ts : List Token)
    (hbound : Suffices (bound + 1) 1 ts) : Parses ts id anything (assigned (bound + 1) ts) := by
  unfold assigned
  split
  · exact ⟨.nothing _, trivial⟩
  · next t after =>
    split
    · next hassign =>
      have hmark : CoversUpTo (t :: after) after [.leaf .assignOp t] := .leaf hassign rfl
      refine .bind hmark.subset (rules.expressionAt _ after (hbound.tail (by decide))) ?_
      intro value us hvalue _
      exact ⟨hmark.cons hvalue, trivial⟩
    · exact ⟨.nothing _, trivial⟩

/-- A literal, a name or an expression in parentheses. -/
theorem primary_parses (rules : ExpressionRules bound) (ts : List Token)
    (hbound : Suffices (bound + 1) 1 ts) : Parses ts single IsPhrase (primary (bound + 1) ts) := by
  unfold primary
  split
  · exact .unexpected (List.Subset.refl _)
  · next t after =>
    split
    · next kind hkind =>
      obtain ⟨htakes, hphrase⟩ := takes_of_operandKind? hkind
      exact ⟨.leaf rfl htakes, hphrase⟩
    · split
      · next hparen =>
        have hopen : CoversUpTo (t :: after) after [.leaf (.op .leftParen) t] := .leaf hparen rfl
        refine .bind hopen.subset (rules.expressionAt _ after (hbound.tail (by decide))) ?_
        intro inner us hinner _
        have hfirst := hopen.cons hinner
        dsimp only
        split
        · exact .fail rfl hfirst.subset
        · next close rest =>
          split
          · next hclose =>
            have hlast : CoversUpTo (close :: rest) rest [.leaf (.op .rightParen) close] :=
              .leaf hclose rfl
            exact ⟨.branch (Nat.le_add_left 2 1) (hfirst.append hlast), rfl⟩
          · exact .fail rfl hfirst.subset
      · exact .unexpected (List.Subset.refl _)

end

/-- All rules for expressions, by induction on the depth. -/
theorem expressionRules (bound : Nat) : ExpressionRules bound := by
  induction bound with
  | zero => exact expressionRules_zero
  | succ bound ih =>
    refine ⟨?_, operators_parses ih, unary_parses ih, suffixes_parses ih, arguments_parses ih,
      assigned_parses ih, primary_parses ih⟩
    intro level ts hbound
    unfold SyntaxTree.expressionAt
    refine .bind (List.Subset.refl _) (ih.unary ts hbound.first) ?_
    intro left us hleft hphrase
    exact ih.operators hleft hphrase (hbound.later hleft.length_lt (by decide))

/-- The depth that an expression starts with suffices for it. -/
theorem expression_parses (ts : List Token) : Parses ts single IsPhrase (expression ts) :=
  (expressionRules _).expressionAt _ ts (.depthBound ts (by decide))

theorem assigned_depthBound_parses (ts : List Token) :
    Parses ts id anything (assigned (depthBound ts) ts) :=
  (expressionRules _).assigned ts (.depthBound ts (by decide))

/-! ## Statements -/

/-- A token of a certain sort, or a fault. -/
theorem expect_parses {sort : Token.Kind} {kind : Kind} {otherwise : Fault} (ts : List Token)
    (agrees : kind.takes sort = true) (hfault : decide (otherwise = .nestedTooDeeply) = false) :
    Parses ts single anything (expect ts sort kind otherwise) := by
  unfold expect
  split
  · exact .fail hfault (List.Subset.refl _)
  · split
    · next hsort => exact ⟨.leaf hsort agrees, trivial⟩
    · exact .fail hfault (List.Subset.refl _)

theorem takes_op (o : Operator) : (Kind.op o).takes (.op o) = true := decide_eq_true rfl

/-- A mark and a type. -/
theorem typeDef_parses (mark : Operator) (ts : List Token) :
    Parses ts single anything (typeDef mark ts) := by
  refine .bind (List.Subset.refl _) (expect_parses ts (takes_op mark) rfl) ?_
  intro leaf us hleaf _
  refine .bind hleaf.subset (expression_parses us) ?_
  intro type vs htype _
  exact ⟨.branch trivial (hleaf.cons htype), trivial⟩

/-- Equals signs, each with the expression after it. -/
theorem assignments_parses (bound : Nat) (ts : List Token) (hbound : ts.length < bound) :
    Parses ts id anything (assignments bound ts) := by
  induction bound generalizing ts with
  | zero => exact absurd hbound (Nat.not_lt_zero _)
  | succ bound ih =>
    unfold assignments
    split
    · exact ⟨.nothing _, trivial⟩
    · next t after =>
      split
      · next hassign =>
        have hmark : CoversUpTo (t :: after) after [.leaf .assignOp t] := .leaf hassign rfl
        refine .bind hmark.subset (expression_parses after) ?_
        intro value us hvalue _
        have hfirst := hmark.cons hvalue
        refine .bind hfirst.subset
          (ih us (Nat.lt_of_lt_of_le hfirst.length_lt (Nat.le_of_lt_succ hbound))) ?_
        intro more vs hmore _
        exact ⟨hfirst.append hmore, trivial⟩
      · exact ⟨.nothing _, trivial⟩

/-- What follows an expression makes it a definition or an assignment. -/
theorem expressionOrAssignment_parses (ts : List Token) :
    Parses ts single anything (expressionOrAssignment ts) := by
  refine .bind (List.Subset.refl _) (expression_parses ts) ?_
  intro target us htarget _
  dsimp only
  split
  · refine .bind htarget.subset (typeDef_parses .colon us) ?_
    intro type vs htype _
    have hfirst := htarget.cons htype
    refine .bind hfirst.subset (assigned_depthBound_parses vs) ?_
    intro value ws hvalue _
    exact ⟨.branch trivial (hfirst.append hvalue), trivial⟩
  split
  · refine .bind htarget.subset (assignments_parses _ us (Nat.lt_succ_self _)) ?_
    intro values vs hvalues _
    exact ⟨.branch trivial (htarget.cons hvalues), trivial⟩
  · exact ⟨.branch trivial htarget, trivial⟩

/-- A statement without a body, up to the end of its line. -/
theorem simple_parses (ts : List Token) : Parses ts single anything (simple ts) := by
  unfold simple
  split
  · exact .unexpected (List.Subset.refl _)
  · next t after =>
    split
    · next hreturn =>
      have hword : CoversUpTo (t :: after) after [.leaf (.keyword .return_) t] := .leaf hreturn rfl
      dsimp only
      split
      · exact ⟨.branch rfl hword, trivial⟩
      · refine .bind hword.subset (expression_parses after) ?_
        intro value us hvalue _
        exact ⟨.branch rfl (hword.cons hvalue), trivial⟩
    · next hpass => exact ⟨.branch rfl (.leaf hpass rfl), trivial⟩
    · next hbreak => exact ⟨.branch trivial (.leaf hbreak rfl), trivial⟩
    · next hcontinue => exact ⟨.branch trivial (.leaf hcontinue rfl), trivial⟩
    · exact expressionOrAssignment_parses _
    · exact expressionOrAssignment_parses _
    · exact expressionOrAssignment_parses _
    · exact expressionOrAssignment_parses _
    · exact .fail rfl (List.Subset.refl _)
    · exact expressionOrAssignment_parses _

/-- A simple statement ends with its line. -/
theorem simpleStatement_parses (ts : List Token) :
    Parses ts single anything (simpleStatement ts) := by
  refine .bind (List.Subset.refl _) (simple_parses ts) ?_
  intro statement us hstatement _
  -- What ends the line is no node.
  unfold endOfLine
  dsimp only
  split
  · exact .unexpected hstatement.subset
  · next t after =>
    split
    · next hline =>
      have hend : CoversUpTo (t :: after) after [] := .layout (by rw [hline]; rfl)
      exact ⟨hstatement.append hend, trivial⟩
    · exact .unexpected hstatement.subset

/-- The type of a parameter may be missing here; reading the tree refuses it. -/
theorem optionalType_parses (ts : List Token) :
    Parses ts id anything (parameters.optionalType ts) := by
  unfold parameters.optionalType
  split
  · refine .bind (List.Subset.refl _) (typeDef_parses .colon ts) ?_
    intro type us htype _
    exact ⟨htype, trivial⟩
  · exact ⟨.nothing _, trivial⟩

/-- Parameters with commas between them, up to the closing parenthesis. -/
theorem parameters_parses (bound : Nat) (ts : List Token) (hbound : ts.length < bound) :
    Parses ts id anything (parameters bound ts) := by
  induction bound generalizing ts with
  | zero => exact absurd hbound (Nat.not_lt_zero _)
  | succ bound ih =>
    have hshorter : ∀ {us : List Token}, us.length < ts.length → us.length < bound := fun hlt =>
      Nat.lt_of_lt_of_le hlt (Nat.le_of_lt_succ hbound)
    unfold parameters
    split
    · exact .fail rfl (List.Subset.refl _)
    · next t after =>
      split
      · next hclose => exact ⟨.leaf hclose rfl, trivial⟩
      split
      · next hident =>
        have hname : CoversUpTo (t :: after) after [.leaf .variableName t] := .leaf hident rfl
        refine .bind hname.subset (optionalType_parses after) ?_
        intro type us htype _
        have hhead := hname.append htype
        refine .bind hhead.subset (assigned_depthBound_parses us) ?_
        intro value vs hvalue _
        have hfirst := hhead.append hvalue
        dsimp only
        split
        · exact .fail rfl hfirst.subset
        · next s rest =>
          split
          · next hcomma =>
            have hmark : CoversUpTo (s :: rest) rest [.leaf (.op .comma) s] := .leaf hcomma rfl
            refine .bind (hfirst.append hmark).subset
              (ih rest (hshorter (hfirst.append hmark).length_lt)) ?_
            intro more ws hmore _
            exact ⟨hfirst.append (hmark.cons hmore), trivial⟩
          split
          · refine .bind hfirst.subset (ih (s :: rest) (hshorter hfirst.length_lt)) ?_
            intro more ws hmore _
            exact ⟨hfirst.append hmore, trivial⟩
          · exact .fail rfl hfirst.subset
      · exact .fail rfl (List.Subset.refl _)

theorem parameterList_parses (ts : List Token) :
    Parses ts single anything (parameterList ts) := by
  refine .bind (List.Subset.refl _) (expect_parses ts (takes_op .leftParen) rfl) ?_
  intro paren us hparen _
  refine .bind hparen.subset (parameters_parses _ us (Nat.lt_succ_self _)) ?_
  intro more vs hmore _
  exact ⟨.branch trivial (hparen.cons hmore), trivial⟩

/-- An arrow and a type, if there is an arrow. -/
theorem returnType_parses (ts : List Token) : Parses ts id anything (returnType ts) := by
  unfold returnType
  split
  · refine .bind (List.Subset.refl _) (typeDef_parses .arrow ts) ?_
    intro type us htype _
    exact ⟨htype, trivial⟩
  · exact ⟨.nothing _, trivial⟩

/-- A definition up to its body. -/
theorem functionHead_parses {t : Token} (ts : List Token) (hdef : t.kind = .keyword .def_) :
    Parses (t :: ts) (fun head => head.1 :: head.2) anything (functionHead t ts) := by
  have hword : CoversUpTo (t :: ts) ts [.leaf (.keyword .def_) t] := .leaf hdef rfl
  refine .bind hword.subset
    (expect_parses ts (show Kind.variableName.takes .ident = true from rfl) rfl) ?_
  intro name us hname _
  have hhead := hword.cons hname
  refine .bind hhead.subset (parameterList_parses us) ?_
  intro params vs hparams _
  have hfirst := hhead.append hparams
  refine .bind hfirst.subset (returnType_parses vs) ?_
  intro type ws htype _
  exact ⟨hfirst.append htype, trivial⟩

/-- The nodes are not the `if` of a conditional. -/
def NoIf (ns : List Node) : Prop := ∀ n ∈ ns, n.kind ≠ .keyword .if_

/-- No phrase is the keyword `if`, which only the first arm of a conditional starts with. -/
theorem IsPhrase.ne_if {n : Node} (h : IsPhrase n) : n.kind ≠ .keyword .if_ := by
  intro hkind
  rw [IsPhrase, hkind] at h
  cases h

/-- What the rules for statements do, at a given depth that suffices. -/
structure StatementRules (bound : Nat) : Prop where
  statement : ∀ ts, Suffices bound 1 ts → Parses ts single anything (statement bound ts)
  body : ∀ ts, Suffices bound 1 ts → Parses ts single IsPhrase (body bound ts)
  block : ∀ ts, Suffices bound 2 ts → Parses ts id anything (block bound ts)
  alternatives : ∀ ts, Suffices bound 2 ts → Parses ts id NoIf (alternatives bound ts)
  otherwise : ∀ ts, Suffices bound 1 ts → Parses ts id NoIf (otherwise bound ts)

section

variable {bound : Nat}

/-- A statement with or without a body. -/
theorem statement_parses (rules : StatementRules bound) (ts : List Token)
    (hbound : Suffices (bound + 1) 1 ts) :
    Parses ts single anything (statement (bound + 1) ts) := by
  unfold statement
  split
  · exact .unexpected (List.Subset.refl _)
  · next t after =>
    split
    · next hdef =>
      refine .bind (List.Subset.refl _) (functionHead_parses after hdef) ?_
      rintro ⟨first, more⟩ us hhead -
      refine .bind hhead.subset (rules.body us (hbound.later hhead.length_lt (by decide))) ?_
      intro body vs hbody _
      exact ⟨.branch trivial (hhead.append hbody), trivial⟩
    · next hif =>
      have hword : CoversUpTo (t :: after) after [.leaf (.keyword .if_) t] := .leaf hif rfl
      refine .bind hword.subset (expression_parses after) ?_
      intro condition us hcondition hphrase
      have hhead := hword.cons hcondition
      refine .bind hhead.subset (rules.body us (hbound.later hhead.length_lt (by decide))) ?_
      intro body vs hbody hphrase'
      have hfirst := hhead.append hbody
      refine .bind hfirst.subset
        (rules.alternatives vs (hbound.later hfirst.length_lt (by decide))) ?_
      intro more ws hmore hnoIf
      have hadmits : Kind.ifStatement.Admits
          (.leaf (.keyword .if_) t :: condition :: body :: more) :=
        ⟨_, _, rfl, rfl, List.forall_mem_cons.mpr
          ⟨hphrase.ne_if, List.forall_mem_cons.mpr ⟨hphrase'.ne_if, hnoIf⟩⟩⟩
      exact ⟨.branch hadmits (hfirst.append hmore), trivial⟩
    · next hwhile =>
      have hword : CoversUpTo (t :: after) after [.leaf (.keyword .while_) t] := .leaf hwhile rfl
      refine .bind hword.subset (expression_parses after) ?_
      intro condition us hcondition _
      have hhead := hword.cons hcondition
      refine .bind hhead.subset (rules.body us (hbound.later hhead.length_lt (by decide))) ?_
      intro body vs hbody _
      have hfirst := hhead.append hbody
      refine .bind hfirst.subset
        (rules.otherwise vs (hbound.later hfirst.length_lt (by decide))) ?_
      intro more ws hmore _
      exact ⟨.branch rfl (hfirst.append hmore), trivial⟩
    · next hfor =>
      have hword : CoversUpTo (t :: after) after [.leaf (.keyword .for_) t] := .leaf hfor rfl
      refine .bind hword.subset (expression_parses after) ?_
      intro target us htarget _
      have hhead := hword.cons htarget
      refine .bind hhead.subset
        (expect_parses us (show (Kind.keyword .in_).takes (.keyword .in_) = true from rfl) rfl) ?_
      intro word vs hin _
      have hrange := hhead.append hin
      refine .bind hrange.subset (expression_parses vs) ?_
      intro values ws hvalues _
      have hfirst := hrange.append hvalues
      refine .bind hfirst.subset (rules.body ws (hbound.later hfirst.length_lt (by decide))) ?_
      intro body xs hbody _
      exact ⟨.branch trivial (hfirst.append hbody), trivial⟩
    · exact simpleStatement_parses _

/-- A colon, then a statement on the same line or a block. -/
theorem body_parses (rules : StatementRules bound) (ts : List Token)
    (hbound : Suffices (bound + 1) 1 ts) : Parses ts single IsPhrase (body (bound + 1) ts) := by
  unfold body
  refine .bind (List.Subset.refl _) (expect_parses ts (takes_op .colon) rfl) ?_
  intro colon us hcolon _
  dsimp only
  split
  · next hline =>
    split
    · next line indent inside =>
      split
      · next hindent =>
        have hnewline : line.kind = .newline := by simpa [isAt] using hline
        have hlines : CoversUpTo (line :: indent :: inside) inside [] :=
          (CoversUpTo.layout (by rw [hnewline]; rfl)).append (.layout (by rw [hindent]; rfl))
        have hhead := hcolon.append hlines
        refine .bind hhead.subset
          (rules.block inside (hbound.later hhead.length_lt (by decide))) ?_
        intro statements vs hblock _
        exact ⟨.branch trivial (hhead.append hblock), rfl⟩
      · exact .fail rfl (List.Subset.trans (List.subset_cons_self _ _) hcolon.subset)
    · exact .fail rfl hcolon.subset
  · refine .bind hcolon.subset (simpleStatement_parses us) ?_
    intro only vs honly _
    exact ⟨.branch trivial (hcolon.cons honly), rfl⟩

/-- Indented statements and the token that closes them. -/
theorem block_parses (rules : StatementRules bound) (ts : List Token)
    (hbound : Suffices (bound + 1) 2 ts) : Parses ts id anything (block (bound + 1) ts) := by
  unfold block
  split
  · exact .unexpected (List.Subset.refl _)
  · next t after =>
    split
    · next hdedent => exact ⟨.layout (by rw [hdedent]; rfl), trivial⟩
    split
    · exact .unexpected (List.Subset.refl _)
    · refine .bind (List.Subset.refl _) (rules.statement (t :: after) hbound.first) ?_
      intro first us hfirst _
      refine .bind hfirst.subset (rules.block us (hbound.later hfirst.length_lt (by decide))) ?_
      intro others vs hothers _
      exact ⟨hfirst.cons hothers, trivial⟩

/-- The `elif` and `else` parts; none of them starts with `if`. -/
theorem alternatives_parses (rules : StatementRules bound) (ts : List Token)
    (hbound : Suffices (bound + 1) 2 ts) : Parses ts id NoIf (alternatives (bound + 1) ts) := by
  unfold alternatives
  split
  · exact ⟨.nothing _, nofun⟩
  · next t after =>
    split
    · next helif =>
      have hword : CoversUpTo (t :: after) after [.leaf (.keyword .elif) t] := .leaf helif rfl
      refine .bind hword.subset (expression_parses after) ?_
      intro condition us hcondition hphrase
      have hhead := hword.cons hcondition
      refine .bind hhead.subset (rules.body us (hbound.later hhead.length_lt (by decide))) ?_
      intro body vs hbody hphrase'
      have hfirst := hhead.append hbody
      refine .bind hfirst.subset
        (rules.alternatives vs (hbound.later hfirst.length_lt (by decide))) ?_
      intro more ws hmore hnoIf
      refine ⟨hfirst.append hmore, List.forall_mem_cons.mpr ⟨?_, List.forall_mem_cons.mpr
        ⟨hphrase.ne_if, List.forall_mem_cons.mpr ⟨hphrase'.ne_if, hnoIf⟩⟩⟩⟩
      show Kind.keyword .elif ≠ .keyword .if_
      decide
    · exact rules.otherwise _ hbound.first

/-- The last arm, if there is one. -/
theorem otherwise_parses (rules : StatementRules bound) (ts : List Token)
    (hbound : Suffices (bound + 1) 1 ts) : Parses ts id NoIf (otherwise (bound + 1) ts) := by
  unfold otherwise
  split
  · exact ⟨.nothing _, nofun⟩
  · next t after =>
    split
    · next helse =>
      have hword : CoversUpTo (t :: after) after [.leaf (.keyword .else_) t] := .leaf helse rfl
      refine .bind hword.subset (rules.body after (hbound.tail (by decide))) ?_
      intro body us hbody hphrase
      refine ⟨hword.cons hbody, List.forall_mem_cons.mpr ⟨?_, List.forall_mem_singleton.mpr
        hphrase.ne_if⟩⟩
      show Kind.keyword .else_ ≠ .keyword .if_
      decide
    · exact ⟨.nothing _, nofun⟩

end

/-- All rules for statements, by induction on the depth. -/
theorem statementRules (bound : Nat) : StatementRules bound := by
  induction bound with
  | zero =>
    constructor
    all_goals exact fun _ h => h.not_zero.elim
  | succ bound ih =>
    exact ⟨statement_parses ih, body_parses ih, block_parses ih, alternatives_parses ih,
      otherwise_parses ih⟩

/-! ## Sources -/

/-- What is made of all tokens of a source: nodes that cover them up to the end of input, or a
failure at one of the tokens. -/
def ParsesAll (ts : List Token) : Except Failure (List Node) → Prop
  | .ok ns => ∃ t rest, t.kind = .endOfInput ∧ CoversUpTo ts (t :: rest) ns
  | .error failure => FailsIn ts failure

/-- Statements up to the end of the source. -/
theorem statements_parses (bound : Nat) (ts : List Token) (hbound : ts.length < bound) :
    ParsesAll ts (statements bound ts) := by
  induction bound generalizing ts with
  | zero => exact absurd hbound (Nat.not_lt_zero _)
  | succ bound ih =>
    unfold statements
    split
    · next hend =>
      cases ts with
      | nil => cases hend
      | cons t rest => exact ⟨t, rest, by simpa [isAt] using hend, .nothing _⟩
    · have hfirst := (statementRules (depthBound ts)).statement ts (.depthBound ts (by decide))
      match hanswer : statement (depthBound ts) ts with
      | .error failure =>
        rw [hanswer] at hfirst
        exact hfirst
      | .ok (first, us) =>
        rw [hanswer] at hfirst
        obtain ⟨hcovers, -⟩ := hfirst
        have hothers := ih us (Nat.lt_of_lt_of_le hcovers.length_lt (Nat.le_of_lt_succ hbound))
        show ParsesAll ts (statements bound us >>= fun others => pure (first :: others))
        match statements bound us, hothers with
        | .error failure, hfails =>
          exact hfails.mono hcovers.subset
        | .ok others, ⟨t, rest, hend, hmore⟩ => exact ⟨t, rest, hend, hcovers.cons hmore⟩

/-- A fault of the grammar stands at a token, and it is not that the depth is exhausted. -/
theorem failsIn_of_ofTokens {size : Nat} {ts : List Token} {failure : Failure}
    (h : ofTokens size ts = .error failure) : FailsIn ts failure := by
  have hparses := statements_parses (ts.length + 1) ts (Nat.lt_succ_self _)
  unfold ofTokens at h
  cases hanswer : statements (ts.length + 1) ts with
  | error other =>
    rw [hanswer] at h hparses
    cases h
    exact hparses
  | ok ns =>
    rw [hanswer] at h
    cases h

/-- **The depth always suffices.** No source is refused because its rules nest too deeply. -/
theorem ne_nestedTooDeeply_of_parse {source : Text} {error : Located Fault}
    (h : parse source = .error error) : error.what ≠ .nestedTooDeeply := by
  unfold parse at h
  split at h
  · cases h
    exact fun h => by cases h
  · next ts _ =>
    cases htree : ofTokens source.length ts with
    | error failure =>
      rw [htree] at h
      cases h
      exact (failsIn_of_ofTokens htree).fault
    | ok tree =>
      rw [htree] at h
      cases h

/-- The tree of a source covers its tokens up to the end of input. -/
theorem covers_of_parse {source : Text} {tree : Node} (h : parse source = .ok tree) :
    tree.kind = .script ∧ ∃ (used : List Token) (t : Token) (rest : List Token),
      tokenize source = .ok (used ++ t :: rest) ∧ t.kind = .endOfInput ∧
        Covers used tree.children := by
  unfold parse at h
  split at h
  · cases h
  · next ts htokens =>
    obtain ⟨children, hchildren, h⟩ := bind_eq_ok.mp (mapError_eq_ok.mp h)
    cases h
    have hparses := statements_parses (ts.length + 1) ts (Nat.lt_succ_self _)
    rw [hchildren] at hparses
    obtain ⟨t, rest, hend, used, rfl, hcovers⟩ := hparses
    exact ⟨rfl, used, t, rest, htokens, hend, hcovers⟩

end WatCompiler.SyntaxTree
