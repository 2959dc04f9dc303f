import WatCompiler.Proofs.Numerals.Trees
import WatCompiler.Proofs.Token.Located

/-!
# The grammar does not read numerals

The rules of the grammar see of a token only its sort. So two sources whose tokens are of the same
sorts have trees of the same form: if one has a tree, the other one has a tree, and the two trees
are parallel if only numerals are spelled differently (`parse_parallel`).
-/

namespace WatCompiler.SyntaxTree

/-! ## Tokens that are alike -/

/-- Two tokens of two sources are the same but for places, and for the spelling of numerals. -/
structure TokenAlike (source source' : Text) (t t' : Token) : Prop where
  kind : t'.kind = t.kind
  text : t.kind ≠ .int → source'.slice t'.start t'.stop = source.slice t.start t.stop

/-- The tokens of two lists are so. -/
abbrev AllAlike (source source' : Text) : List Token → List Token → Prop :=
  List.Forall₂ (TokenAlike source source')

section Nodes

variable {source source' : Text} {ts ts' : List Token} {t t' : Token} {n n' : Node}
  {ns ns' ms ms' : List Node}

/-- Tokens that are alike are of the same kinds. -/
theorem isAt_eq (h : AllAlike source source' ts ts') (kind : Token.Kind) :
    isAt ts' kind = isAt ts kind := by
  cases h with
  | nil => rfl
  | cons ht _ => rw [isAt, isAt, ht.kind]

/-- A token is a leaf of both trees. -/
theorem leaf_parallel {kind : Kind} {sort : Token.Kind} (ht : TokenAlike source source' t t')
    (hsort : t.kind = sort) (htakes : kind.takes sort = true) :
    Node.Parallel source source' (.leaf kind t) (.leaf kind t') := by
  rw [Node.leaf, Node.leaf, Node.Parallel]
  -- Only a numeral can be spelled differently, and it can only be a leaf for numbers.
  refine ⟨rfl, fun _ hnumber => ht.text fun hint => hnumber ?_, trivial⟩
  rw [← hsort, hint] at htakes
  exact eq_number_of_takes htakes

/-- Nodes with parallel children are parallel. -/
theorem branch_parallel {kind : Kind} (hn : n.Parallel source source' n')
    (hns : AllParallel source source' ns ns') :
    Node.Parallel source source' (.branch kind n ns) (.branch kind n' ns') := by
  rw [Node.branch, Node.branch, Node.Parallel]
  exact ⟨rfl, fun hnil => absurd hnil (List.cons_ne_nil _ _), hn, hns⟩

theorem AllParallel.append (h : AllParallel source source' ns ns')
    (h' : AllParallel source source' ms ms') :
    AllParallel source source' (ns ++ ms) (ns' ++ ms') := by
  induction ns generalizing ns' with
  | nil =>
    cases h.nil_eq
    exact h'
  | cons n rest ih =>
    obtain ⟨n', rest', rfl, hn, hrest⟩ := h.exists_cons
    exact ⟨hn, ih hrest⟩

end Nodes

/-! ## Rules -/

section Imitates

variable {α β γ δ : Type} {R : α → β → Prop} {S : γ → δ → Prop} {x : Except Failure α}
  {y : Except Failure β}

/-- Where the first rule has an answer, the second one has an answer like it. -/
def Imitates (R : α → β → Prop) (x : Except Failure α) (y : Except Failure β) : Prop :=
  ∀ a, x = .ok a → ∃ b, y = .ok b ∧ R a b

namespace Imitates

theorem fail {failure : Failure} : Imitates R (.error failure) y := nofun

theorem ok {a : α} {b : β} (h : R a b) : Imitates R (.ok a) (.ok b) := by
  intro a' ha'
  cases ha'
  exact ⟨b, rfl, h⟩

/-- What goes on alike after results that are alike succeeds where the first one does. -/
theorem bind {k : α → Except Failure γ} {k' : β → Except Failure δ} (h : Imitates R x y)
    (hk : ∀ a b, R a b → Imitates S (k a) (k' b)) : Imitates S (x >>= k) (y >>= k') := by
  intro c hc
  obtain ⟨a, ha, hc⟩ := bind_eq_ok.mp hc
  obtain ⟨b, hb, hab⟩ := h a ha
  obtain ⟨d, hd, hcd⟩ := hk a b hab c hc
  exact ⟨d, bind_eq_ok.mpr ⟨b, hb, hd⟩, hcd⟩

/-- Both sides take the same branch. -/
theorem ite {c : Prop} [Decidable c] {x' : Except Failure α} {y' : Except Failure β}
    (h : c → Imitates R x y) (h' : ¬ c → Imitates R x' y') :
    Imitates R (if c then x else x') (if c then y else y') := by
  by_cases hc : c
  · rw [if_pos hc, if_pos hc]
    exact h hc
  · rw [if_neg hc, if_neg hc]
    exact h' hc

end Imitates

end Imitates

variable (source source' : Text)

/-- Two rules have read parallel nodes, and the tokens that are left are alike. -/
def NodeAlike (a b : WithRest Node) : Prop :=
  a.1.Parallel source source' b.1 ∧ AllAlike source source' a.2 b.2

/-- Two rules have read parallel lists of nodes, and the tokens that are left are alike. -/
def NodesAlike (a b : WithRest (List Node)) : Prop :=
  AllParallel source source' a.1 b.1 ∧ AllAlike source source' a.2 b.2

/-! ## Expressions -/

/-- What the rules for expressions make of tokens that are alike, at a given depth. -/
structure AlikeExpressions (bound : Nat) : Prop where
  expressionAt : ∀ {level ts ts'}, AllAlike source source' ts ts' →
    Imitates (NodeAlike source source') (expressionAt bound level ts) (expressionAt bound level ts')
  operators : ∀ {level left left' ts ts'}, left.Parallel source source' left' →
    AllAlike source source' ts ts' →
    Imitates (NodeAlike source source') (operators bound level left ts)
      (operators bound level left' ts')
  unary : ∀ {ts ts'}, AllAlike source source' ts ts' →
    Imitates (NodeAlike source source') (unary bound ts) (unary bound ts')
  suffixes : ∀ {operand operand' ts ts'}, operand.Parallel source source' operand' →
    AllAlike source source' ts ts' →
    Imitates (NodeAlike source source') (suffixes bound operand ts) (suffixes bound operand' ts')
  arguments : ∀ {ts ts'}, AllAlike source source' ts ts' →
    Imitates (NodesAlike source source') (arguments bound ts) (arguments bound ts')
  assigned : ∀ {ts ts'}, AllAlike source source' ts ts' →
    Imitates (NodesAlike source source') (assigned bound ts) (assigned bound ts')
  primary : ∀ {ts ts'}, AllAlike source source' ts ts' →
    Imitates (NodeAlike source source') (primary bound ts) (primary bound ts')

variable {source source'} {bound : Nat} {ts ts' : List Token}

/-- Without any depth nothing is parsed. -/
theorem alikeExpressions_zero : AlikeExpressions source source' 0 where
  expressionAt _ := .fail
  operators _ _ := .fail
  unary _ := .fail
  suffixes _ _ := .fail
  arguments _ := .fail
  assigned _ := .fail
  primary _ := .fail

/-- Which operators are taken depends on their kinds only. -/
theorem operators_alike (rules : AlikeExpressions source source' bound) {level : Nat}
    {left left' : Node}
    (hleft : left.Parallel source source' left') (h : AllAlike source source' ts ts') :
    Imitates (NodeAlike source source') (operators (bound + 1) level left ts)
      (operators (bound + 1) level left' ts') := by
  unfold operators
  cases h with
  | nil => exact .ok ⟨hleft, .nil⟩
  | @cons t t' after after' ht hafter =>
    dsimp only
    rw [ht.kind]
    cases hlevel : Level.ofBinary? t.kind with
    | none => exact .ok ⟨hleft, .cons ht hafter⟩
    | some found =>
      have hop : Node.Parallel source source' (.leaf (operatorKind t.kind) t)
          (.leaf (operatorKind t.kind) t') :=
        leaf_parallel ht rfl (takes_operatorKind (Or.inl (by rw [hlevel]; rfl)))
      refine .ite (fun _ => .ok ⟨hleft, .cons ht hafter⟩) (fun _ => ?_)
      refine (rules.expressionAt hafter).bind ?_
      rintro ⟨right, us⟩ ⟨right', us'⟩ ⟨hright, hus⟩
      exact rules.operators (branch_parallel hleft ⟨hop, hright, trivial⟩) hus

/-- An operand, with the operators before it. -/
theorem unary_alike (rules : AlikeExpressions source source' bound)
    (h : AllAlike source source' ts ts') :
    Imitates (NodeAlike source source') (unary (bound + 1) ts) (unary (bound + 1) ts') := by
  unfold unary
  cases h with
  | nil => exact .fail
  | @cons t t' after after' ht hafter =>
    dsimp only
    rw [ht.kind]
    cases hlevel : Level.ofUnary? t.kind with
    | some level =>
      have hop : Node.Parallel source source' (.leaf (operatorKind t.kind) t)
          (.leaf (operatorKind t.kind) t') :=
        leaf_parallel ht rfl (takes_operatorKind (Or.inr (by rw [hlevel]; rfl)))
      refine (rules.expressionAt hafter).bind ?_
      rintro ⟨operand, us⟩ ⟨operand', us'⟩ ⟨hoperand, hus⟩
      exact .ok ⟨branch_parallel hop ⟨hoperand, trivial⟩, hus⟩
    | none =>
      refine (rules.primary (.cons ht hafter)).bind ?_
      rintro ⟨operand, us⟩ ⟨operand', us'⟩ ⟨hoperand, hus⟩
      exact rules.suffixes hoperand hus

/-- Calls and attribute accesses behind an operand. -/
theorem suffixes_alike (rules : AlikeExpressions source source' bound) {operand operand' : Node}
    (hoperand : operand.Parallel source source' operand') (h : AllAlike source source' ts ts') :
    Imitates (NodeAlike source source') (suffixes (bound + 1) operand ts)
      (suffixes (bound + 1) operand' ts') := by
  unfold suffixes
  cases h with
  | nil => exact .ok ⟨hoperand, .nil⟩
  | @cons t t' after after' ht hafter =>
    dsimp only
    rw [ht.kind]
    refine .ite (fun hparen => ?_) (fun _ => .ite (fun hdot => ?_) (fun _ => ?_))
    · refine (rules.arguments hafter).bind ?_
      rintro ⟨args, us⟩ ⟨args', us'⟩ ⟨hargs, hus⟩
      have hlist : Node.Parallel source source' (.branch .argList (.leaf (.op .leftParen) t) args)
          (.branch .argList (.leaf (.op .leftParen) t') args') :=
        branch_parallel (leaf_parallel ht hparen rfl) hargs
      exact rules.suffixes (branch_parallel hoperand ⟨hlist, trivial⟩) hus
    · cases hafter with
      | nil => exact .fail
      | @cons name name' us us' hname hus =>
        dsimp only
        rw [hname.kind]
        refine .ite (fun hident => ?_) (fun _ => .fail)
        exact rules.suffixes (branch_parallel hoperand
          ⟨leaf_parallel ht hdot rfl, leaf_parallel hname hident rfl, trivial⟩) hus
    · exact .ok ⟨hoperand, .cons ht hafter⟩

/-- Arguments up to the closing parenthesis. -/
theorem arguments_alike (rules : AlikeExpressions source source' bound)
    (h : AllAlike source source' ts ts') :
    Imitates (NodesAlike source source') (arguments (bound + 1) ts)
      (arguments (bound + 1) ts') := by
  unfold arguments
  cases h with
  | nil => exact .fail
  | @cons t t' after after' ht hafter =>
    dsimp only
    rw [ht.kind]
    refine .ite (fun hclose => ?_) (fun _ => ?_)
    · exact .ok ⟨⟨leaf_parallel ht hclose rfl, trivial⟩, hafter⟩
    · refine (rules.expressionAt (.cons ht hafter)).bind ?_
      rintro ⟨value, us⟩ ⟨value', us'⟩ ⟨hvalue, hus⟩
      refine (rules.assigned hus).bind ?_
      rintro ⟨named, vs⟩ ⟨named', vs'⟩ ⟨hnamed, hvs⟩
      have hfirst : AllParallel source source' (value :: named) (value' :: named') :=
        ⟨hvalue, hnamed⟩
      cases hvs with
      | nil => exact .fail
      | @cons s s' rest rest' hs hrest =>
        dsimp only
        rw [hs.kind]
        refine .ite (fun hcomma => ?_) (fun _ => .ite (fun _ => ?_) (fun _ => .fail))
        · refine (rules.arguments hrest).bind ?_
          rintro ⟨more, ws⟩ ⟨more', ws'⟩ ⟨hmore, hws⟩
          exact .ok ⟨hfirst.append ⟨leaf_parallel hs hcomma rfl, hmore⟩, hws⟩
        · refine (rules.arguments (.cons hs hrest)).bind ?_
          rintro ⟨more, ws⟩ ⟨more', ws'⟩ ⟨hmore, hws⟩
          exact .ok ⟨hfirst.append hmore, hws⟩

theorem assigned_alike (rules : AlikeExpressions source source' bound)
    (h : AllAlike source source' ts ts') :
    Imitates (NodesAlike source source') (assigned (bound + 1) ts) (assigned (bound + 1) ts') := by
  unfold assigned
  cases h with
  | nil => exact .ok ⟨trivial, .nil⟩
  | @cons t t' after after' ht hafter =>
    dsimp only
    rw [ht.kind]
    refine .ite (fun hassign => ?_) (fun _ => .ok ⟨trivial, .cons ht hafter⟩)
    refine (rules.expressionAt hafter).bind ?_
    rintro ⟨value, us⟩ ⟨value', us'⟩ ⟨hvalue, hus⟩
    exact .ok ⟨⟨leaf_parallel ht hassign rfl, hvalue, trivial⟩, hus⟩

/-- Numerals may differ here, and nothing else. -/
theorem primary_alike (rules : AlikeExpressions source source' bound)
    (h : AllAlike source source' ts ts') :
    Imitates (NodeAlike source source') (primary (bound + 1) ts) (primary (bound + 1) ts') := by
  unfold primary
  cases h with
  | nil => exact .fail
  | @cons t t' after after' ht hafter =>
    dsimp only
    rw [ht.kind]
    cases hkind : operandKind? t.kind with
    | some kind => exact .ok ⟨leaf_parallel ht rfl (takes_of_operandKind? hkind).1, hafter⟩
    | none =>
      refine .ite (fun hparen => ?_) (fun _ => .fail)
      refine (rules.expressionAt hafter).bind ?_
      rintro ⟨inner, us⟩ ⟨inner', us'⟩ ⟨hinner, hus⟩
      cases hus with
      | nil => exact .fail
      | @cons close close' rest rest' hclose hrest =>
        dsimp only
        rw [hclose.kind]
        refine .ite (fun hmark => ?_) (fun _ => .fail)
        exact .ok ⟨branch_parallel (leaf_parallel ht hparen rfl)
          ⟨hinner, leaf_parallel hclose hmark rfl, trivial⟩, hrest⟩

/-- All rules for expressions, by induction on the depth. -/
theorem alikeExpressions (bound : Nat) : AlikeExpressions source source' bound := by
  induction bound with
  | zero => exact alikeExpressions_zero
  | succ bound ih =>
    refine ⟨?_, operators_alike ih, unary_alike ih, suffixes_alike ih, arguments_alike ih,
      assigned_alike ih, primary_alike ih⟩
    intro level ts ts' h
    unfold SyntaxTree.expressionAt
    refine (ih.unary h).bind ?_
    rintro ⟨left, us⟩ ⟨left', us'⟩ ⟨hleft, hus⟩
    exact ih.operators hleft hus

/-- The depths are the same, since there are as many tokens. -/
theorem expression_alike (h : AllAlike source source' ts ts') :
    Imitates (NodeAlike source source') (expression ts) (expression ts') := by
  unfold expression depthBound
  rw [h.length_eq]
  exact (alikeExpressions _).expressionAt h

/-! ## Statements -/

theorem assigned_depth_alike (h : AllAlike source source' ts ts') :
    Imitates (NodesAlike source source') (assigned (depthBound ts) ts)
      (assigned (depthBound ts') ts') := by
  unfold depthBound
  rw [h.length_eq]
  exact (alikeExpressions _).assigned h

/-- A token that has to be of a given kind; the faults may differ. -/
theorem expect_alike {sort : Token.Kind} {kind : Kind} {fault fault' : Fault}
    (h : AllAlike source source' ts ts') (htakes : kind.takes sort = true) :
    Imitates (NodeAlike source source') (expect ts sort kind fault)
      (expect ts' sort kind fault') := by
  unfold expect
  cases h with
  | nil => exact .fail
  | cons ht hafter =>
    dsimp only
    rw [ht.kind]
    exact .ite (fun hsort => .ok ⟨leaf_parallel ht hsort htakes, hafter⟩) (fun _ => .fail)

theorem endOfLine_alike (h : AllAlike source source' ts ts') :
    Imitates (AllAlike source source') (endOfLine ts) (endOfLine ts') := by
  unfold endOfLine
  cases h with
  | nil => exact .fail
  | cons ht hafter =>
    dsimp only
    rw [ht.kind]
    exact .ite (fun _ => .ok hafter) (fun _ => .fail)

/-- A type behind its mark. -/
theorem typeDef_alike (mark : Operator) (h : AllAlike source source' ts ts') :
    Imitates (NodeAlike source source') (typeDef mark ts) (typeDef mark ts') := by
  unfold typeDef
  refine (expect_alike h (takes_op mark)).bind ?_
  rintro ⟨leaf, us⟩ ⟨leaf', us'⟩ ⟨hleaf, hus⟩
  refine (expression_alike hus).bind ?_
  rintro ⟨type, vs⟩ ⟨type', vs'⟩ ⟨htype, hvs⟩
  exact .ok ⟨branch_parallel hleaf ⟨htype, trivial⟩, hvs⟩

/-- Equals signs, each with the expression after it. -/
theorem assignments_alike (bound : Nat) (h : AllAlike source source' ts ts') :
    Imitates (NodesAlike source source') (assignments bound ts) (assignments bound ts') := by
  induction bound generalizing ts ts' with
  | zero => exact .fail
  | succ bound ih =>
    unfold assignments
    cases h with
    | nil => exact .ok ⟨trivial, .nil⟩
    | @cons t t' after after' ht hafter =>
      dsimp only
      rw [ht.kind]
      refine .ite (fun hassign => ?_) (fun _ => .ok ⟨trivial, .cons ht hafter⟩)
      refine (expression_alike hafter).bind ?_
      rintro ⟨value, us⟩ ⟨value', us'⟩ ⟨hvalue, hus⟩
      refine (ih hus).bind ?_
      rintro ⟨more, vs⟩ ⟨more', vs'⟩ ⟨hmore, hvs⟩
      exact .ok ⟨⟨leaf_parallel ht hassign rfl, hvalue, hmore⟩, hvs⟩

theorem expressionOrAssignment_alike (h : AllAlike source source' ts ts') :
    Imitates (NodeAlike source source') (expressionOrAssignment ts)
      (expressionOrAssignment ts') := by
  unfold expressionOrAssignment
  refine (expression_alike h).bind ?_
  rintro ⟨target, us⟩ ⟨target', us'⟩ ⟨htarget, hus⟩
  dsimp only
  rw [isAt_eq hus, isAt_eq hus]
  refine .ite (fun _ => ?_) (fun _ => .ite (fun _ => ?_) (fun _ => ?_))
  · refine (typeDef_alike .colon hus).bind ?_
    rintro ⟨type, vs⟩ ⟨type', vs'⟩ ⟨htype, hvs⟩
    refine (assigned_depth_alike hvs).bind ?_
    rintro ⟨value, ws⟩ ⟨value', ws'⟩ ⟨hvalue, hws⟩
    exact .ok ⟨branch_parallel htarget ⟨htype, hvalue⟩, hws⟩
  · rw [hus.length_eq]
    refine (assignments_alike _ hus).bind ?_
    rintro ⟨values, vs⟩ ⟨values', vs'⟩ ⟨hvalues, hvs⟩
    exact .ok ⟨branch_parallel htarget hvalues, hvs⟩
  · exact .ok ⟨branch_parallel htarget trivial, hus⟩

theorem simple_alike (h : AllAlike source source' ts ts') :
    Imitates (NodeAlike source source') (simple ts) (simple ts') := by
  have hall := expressionOrAssignment_alike h
  unfold simple
  cases h with
  | nil => exact .fail
  | @cons t t' after after' ht hafter =>
    dsimp only
    rw [ht.kind]
    cases hkind : t.kind with
    | keyword k =>
      cases k with
      | return_ =>
        dsimp only
        rw [isAt_eq hafter]
        refine .ite (fun _ => ?_) (fun _ => ?_)
        · exact .ok ⟨branch_parallel (leaf_parallel ht hkind rfl) trivial, hafter⟩
        · refine (expression_alike hafter).bind ?_
          rintro ⟨value, us⟩ ⟨value', us'⟩ ⟨hvalue, hus⟩
          exact .ok ⟨branch_parallel (leaf_parallel ht hkind rfl) ⟨hvalue, trivial⟩, hus⟩
      | pass | break_ | continue_ =>
        exact .ok ⟨branch_parallel (leaf_parallel ht hkind rfl) trivial, hafter⟩
      | not | true | false | none => exact hall
      | _ => exact .fail
    | _ => exact hall

/-- A statement without a body and the end of its line. -/
theorem simpleStatement_alike (h : AllAlike source source' ts ts') :
    Imitates (NodeAlike source source') (simpleStatement ts) (simpleStatement ts') := by
  unfold simpleStatement
  refine (simple_alike h).bind ?_
  rintro ⟨statement, us⟩ ⟨statement', us'⟩ ⟨hstatement, hus⟩
  refine (endOfLine_alike hus).bind ?_
  intro vs vs' hvs
  exact .ok ⟨hstatement, hvs⟩

/-! ## Functions -/

theorem optionalType_alike (h : AllAlike source source' ts ts') :
    Imitates (NodesAlike source source') (parameters.optionalType ts)
      (parameters.optionalType ts') := by
  unfold parameters.optionalType
  rw [isAt_eq h]
  refine .ite (fun _ => ?_) (fun _ => .ok ⟨trivial, h⟩)
  refine (typeDef_alike .colon h).bind ?_
  rintro ⟨type, us⟩ ⟨type', us'⟩ ⟨htype, hus⟩
  exact .ok ⟨⟨htype, trivial⟩, hus⟩

/-- Parameters up to the closing parenthesis. -/
theorem parameters_alike (bound : Nat) (h : AllAlike source source' ts ts') :
    Imitates (NodesAlike source source') (parameters bound ts) (parameters bound ts') := by
  induction bound generalizing ts ts' with
  | zero => exact .fail
  | succ bound ih =>
    unfold parameters
    cases h with
    | nil => exact .fail
    | @cons t t' after after' ht hafter =>
      dsimp only
      rw [ht.kind]
      refine .ite (fun hclose => ?_) (fun _ => .ite (fun hident => ?_) (fun _ => .fail))
      · exact .ok ⟨⟨leaf_parallel ht hclose rfl, trivial⟩, hafter⟩
      · refine (optionalType_alike hafter).bind ?_
        rintro ⟨type, us⟩ ⟨type', us'⟩ ⟨htype, hus⟩
        refine (assigned_depth_alike hus).bind ?_
        rintro ⟨value, vs⟩ ⟨value', vs'⟩ ⟨hvalue, hvs⟩
        have hfirst : AllParallel source source' (.leaf .variableName t :: type ++ value)
            (.leaf .variableName t' :: type' ++ value') :=
          AllParallel.append ⟨leaf_parallel ht hident rfl, htype⟩ hvalue
        cases hvs with
        | nil => exact .fail
        | @cons s s' rest rest' hs hrest =>
          dsimp only
          rw [hs.kind]
          refine .ite (fun hcomma => ?_) (fun _ => .ite (fun _ => ?_) (fun _ => .fail))
          · refine (ih hrest).bind ?_
            rintro ⟨more, ws⟩ ⟨more', ws'⟩ ⟨hmore, hws⟩
            exact .ok ⟨hfirst.append ⟨leaf_parallel hs hcomma rfl, hmore⟩, hws⟩
          · refine (ih (.cons hs hrest)).bind ?_
            rintro ⟨more, ws⟩ ⟨more', ws'⟩ ⟨hmore, hws⟩
            exact .ok ⟨hfirst.append hmore, hws⟩

theorem parameterList_alike (h : AllAlike source source' ts ts') :
    Imitates (NodeAlike source source') (parameterList ts) (parameterList ts') := by
  unfold parameterList
  refine (expect_alike h (takes_op .leftParen)).bind ?_
  rintro ⟨paren, us⟩ ⟨paren', us'⟩ ⟨hparen, hus⟩
  dsimp only at hus ⊢
  rw [hus.length_eq]
  refine (parameters_alike _ hus).bind ?_
  rintro ⟨more, vs⟩ ⟨more', vs'⟩ ⟨hmore, hvs⟩
  exact .ok ⟨branch_parallel hparen hmore, hvs⟩

theorem returnType_alike (h : AllAlike source source' ts ts') :
    Imitates (NodesAlike source source') (returnType ts) (returnType ts') := by
  unfold returnType
  rw [isAt_eq h]
  refine .ite (fun _ => ?_) (fun _ => .ok ⟨trivial, h⟩)
  refine (typeDef_alike .arrow h).bind ?_
  rintro ⟨type, us⟩ ⟨type', us'⟩ ⟨htype, hus⟩
  exact .ok ⟨⟨htype, trivial⟩, hus⟩

/-- A function definition up to its body. -/
theorem functionHead_alike {t t' : Token} (ht : TokenAlike source source' t t')
    (hdef : t.kind = .keyword .def_) (h : AllAlike source source' ts ts') :
    Imitates (fun a b => AllParallel source source' (a.1.1 :: a.1.2) (b.1.1 :: b.1.2) ∧
        AllAlike source source' a.2 b.2)
      (functionHead t ts) (functionHead t' ts') := by
  unfold functionHead
  refine (expect_alike h (show Kind.variableName.takes .ident = true from rfl)).bind ?_
  rintro ⟨name, us⟩ ⟨name', us'⟩ ⟨hname, hus⟩
  refine (parameterList_alike hus).bind ?_
  rintro ⟨params, vs⟩ ⟨params', vs'⟩ ⟨hparams, hvs⟩
  refine (returnType_alike hvs).bind ?_
  rintro ⟨type, ws⟩ ⟨type', ws'⟩ ⟨htype, hws⟩
  exact .ok ⟨⟨leaf_parallel ht hdef rfl, hname, hparams, htype⟩, hws⟩

/-! ## Compound statements -/

/-- What the rules for statements make of tokens that are alike, at a given depth. -/
structure AlikeStatements (source source' : Text) (bound : Nat) : Prop where
  statement : ∀ {ts ts'}, AllAlike source source' ts ts' →
    Imitates (NodeAlike source source') (statement bound ts) (statement bound ts')
  body : ∀ {ts ts'}, AllAlike source source' ts ts' →
    Imitates (NodeAlike source source') (body bound ts) (body bound ts')
  block : ∀ {ts ts'}, AllAlike source source' ts ts' →
    Imitates (NodesAlike source source') (block bound ts) (block bound ts')
  alternatives : ∀ {ts ts'}, AllAlike source source' ts ts' →
    Imitates (NodesAlike source source') (alternatives bound ts) (alternatives bound ts')
  otherwise : ∀ {ts ts'}, AllAlike source source' ts ts' →
    Imitates (NodesAlike source source') (otherwise bound ts) (otherwise bound ts')

/-- A statement, with or without a body. -/
theorem statement_alike (rules : AlikeStatements source source' bound)
    (h : AllAlike source source' ts ts') :
    Imitates (NodeAlike source source') (statement (bound + 1) ts) (statement (bound + 1) ts') := by
  have hsimple := simpleStatement_alike h
  unfold statement
  cases h with
  | nil => exact .fail
  | @cons t t' after after' ht hafter =>
    dsimp only
    rw [ht.kind]
    cases hkind : t.kind with
    | keyword k =>
      cases k with
      | def_ =>
        refine (functionHead_alike ht hkind hafter).bind ?_
        rintro ⟨⟨first, rest⟩, us⟩ ⟨⟨first', rest'⟩, us'⟩ ⟨⟨hfirst, hrest⟩, hus⟩
        refine (rules.body hus).bind ?_
        rintro ⟨body, vs⟩ ⟨body', vs'⟩ ⟨hbody, hvs⟩
        exact .ok ⟨branch_parallel hfirst (hrest.append ⟨hbody, trivial⟩), hvs⟩
      | if_ =>
        refine (expression_alike hafter).bind ?_
        rintro ⟨condition, us⟩ ⟨condition', us'⟩ ⟨hcondition, hus⟩
        refine (rules.body hus).bind ?_
        rintro ⟨body, vs⟩ ⟨body', vs'⟩ ⟨hbody, hvs⟩
        refine (rules.alternatives hvs).bind ?_
        rintro ⟨more, ws⟩ ⟨more', ws'⟩ ⟨hmore, hws⟩
        exact .ok ⟨branch_parallel (leaf_parallel ht hkind rfl) ⟨hcondition, hbody, hmore⟩, hws⟩
      | while_ =>
        refine (expression_alike hafter).bind ?_
        rintro ⟨condition, us⟩ ⟨condition', us'⟩ ⟨hcondition, hus⟩
        refine (rules.body hus).bind ?_
        rintro ⟨body, vs⟩ ⟨body', vs'⟩ ⟨hbody, hvs⟩
        refine (rules.otherwise hvs).bind ?_
        rintro ⟨more, ws⟩ ⟨more', ws'⟩ ⟨hmore, hws⟩
        exact .ok ⟨branch_parallel (leaf_parallel ht hkind rfl) ⟨hcondition, hbody, hmore⟩, hws⟩
      | for_ =>
        refine (expression_alike hafter).bind ?_
        rintro ⟨target, us⟩ ⟨target', us'⟩ ⟨htarget, hus⟩
        have htakes : (Kind.keyword .in_).takes (.keyword .in_) = true := rfl
        refine (expect_alike hus htakes).bind ?_
        rintro ⟨word, vs⟩ ⟨word', vs'⟩ ⟨hword, hvs⟩
        refine (expression_alike hvs).bind ?_
        rintro ⟨values, ws⟩ ⟨values', ws'⟩ ⟨hvalues, hws⟩
        refine (rules.body hws).bind ?_
        rintro ⟨body, xs⟩ ⟨body', xs'⟩ ⟨hbody, hxs⟩
        exact .ok ⟨branch_parallel (leaf_parallel ht hkind rfl)
          ⟨htarget, hword, hvalues, hbody, trivial⟩, hxs⟩
      | _ => exact hsimple
    | _ => exact hsimple

/-- A colon, then a statement on the same line or a block. -/
theorem body_alike (rules : AlikeStatements source source' bound)
    (h : AllAlike source source' ts ts') :
    Imitates (NodeAlike source source') (body (bound + 1) ts) (body (bound + 1) ts') := by
  unfold body
  refine (expect_alike h (takes_op .colon)).bind ?_
  rintro ⟨colon, us⟩ ⟨colon', us'⟩ ⟨hcolon, hus⟩
  dsimp only at hus ⊢
  rw [isAt_eq hus]
  refine .ite (fun _ => ?_) (fun _ => ?_)
  · cases hus with
    | nil => exact .fail
    | cons hline hafter =>
      cases hafter with
      | nil => exact .fail
      | cons hindent hinside =>
        dsimp only
        rw [hindent.kind]
        refine .ite (fun _ => ?_) (fun _ => .fail)
        refine (rules.block hinside).bind ?_
        rintro ⟨statements, vs⟩ ⟨statements', vs'⟩ ⟨hstatements, hvs⟩
        exact .ok ⟨branch_parallel hcolon hstatements, hvs⟩
  · refine (simpleStatement_alike hus).bind ?_
    rintro ⟨only, vs⟩ ⟨only', vs'⟩ ⟨honly, hvs⟩
    exact .ok ⟨branch_parallel hcolon ⟨honly, trivial⟩, hvs⟩

theorem block_alike (rules : AlikeStatements source source' bound)
    (h : AllAlike source source' ts ts') :
    Imitates (NodesAlike source source') (block (bound + 1) ts) (block (bound + 1) ts') := by
  unfold block
  cases h with
  | nil => exact .fail
  | cons ht hafter =>
    dsimp only
    rw [ht.kind]
    refine .ite (fun _ => .ok ⟨trivial, hafter⟩) (fun _ => .ite (fun _ => .fail) (fun _ => ?_))
    refine (rules.statement (.cons ht hafter)).bind ?_
    rintro ⟨first, us⟩ ⟨first', us'⟩ ⟨hfirst, hus⟩
    refine (rules.block hus).bind ?_
    rintro ⟨others, vs⟩ ⟨others', vs'⟩ ⟨hothers, hvs⟩
    exact .ok ⟨⟨hfirst, hothers⟩, hvs⟩

/-- The `elif` and `else` parts of a conditional. -/
theorem alternatives_alike (rules : AlikeStatements source source' bound)
    (h : AllAlike source source' ts ts') :
    Imitates (NodesAlike source source') (alternatives (bound + 1) ts)
      (alternatives (bound + 1) ts') := by
  unfold alternatives
  cases h with
  | nil => exact .ok ⟨trivial, .nil⟩
  | cons ht hafter =>
    dsimp only
    rw [ht.kind]
    refine .ite (fun helif => ?_) (fun _ => rules.otherwise (.cons ht hafter))
    refine (expression_alike hafter).bind ?_
    rintro ⟨condition, us⟩ ⟨condition', us'⟩ ⟨hcondition, hus⟩
    refine (rules.body hus).bind ?_
    rintro ⟨body, vs⟩ ⟨body', vs'⟩ ⟨hbody, hvs⟩
    refine (rules.alternatives hvs).bind ?_
    rintro ⟨more, ws⟩ ⟨more', ws'⟩ ⟨hmore, hws⟩
    exact .ok ⟨⟨leaf_parallel ht helif rfl, hcondition, hbody, hmore⟩, hws⟩

theorem otherwise_alike (rules : AlikeStatements source source' bound)
    (h : AllAlike source source' ts ts') :
    Imitates (NodesAlike source source') (otherwise (bound + 1) ts)
      (otherwise (bound + 1) ts') := by
  unfold otherwise
  cases h with
  | nil => exact .ok ⟨trivial, .nil⟩
  | cons ht hafter =>
    dsimp only
    rw [ht.kind]
    refine .ite (fun helse => ?_) (fun _ => .ok ⟨trivial, .cons ht hafter⟩)
    refine (rules.body hafter).bind ?_
    rintro ⟨body, us⟩ ⟨body', us'⟩ ⟨hbody, hus⟩
    exact .ok ⟨⟨leaf_parallel ht helse rfl, hbody, trivial⟩, hus⟩

/-- All rules for statements, by induction on the depth. -/
theorem alikeStatements (bound : Nat) : AlikeStatements source source' bound := by
  induction bound with
  | zero =>
    constructor
    all_goals exact fun _ => .fail
  | succ bound ih =>
    exact ⟨statement_alike ih, body_alike ih, block_alike ih, alternatives_alike ih,
      otherwise_alike ih⟩

/-! ## Sources -/

/-- The statements of a source up to its end. -/
theorem statements_alike (bound : Nat) (h : AllAlike source source' ts ts') :
    Imitates (AllParallel source source') (statements bound ts) (statements bound ts') := by
  induction bound generalizing ts ts' with
  | zero => exact .fail
  | succ bound ih =>
    unfold statements depthBound
    rw [isAt_eq h, h.length_eq]
    refine .ite (fun _ => .ok trivial) (fun _ => ?_)
    refine ((alikeStatements _).statement h).bind ?_
    rintro ⟨first, us⟩ ⟨first', us'⟩ ⟨hfirst, hus⟩
    refine (ih hus).bind ?_
    intro rest rest' hrest
    exact .ok ⟨hfirst, hrest⟩

/-- A token without its place, and a numeral without its digits. -/
def blanked (t : Token) : Token.Kind × Text := (t.kind, if t.kind = .int then [] else t.text)

/-- Tokens that differ in the texts of numerals only are alike. -/
theorem allAlike_of_blanked (hts : ∀ t ∈ ts, Token.StandsIn source t)
    (hts' : ∀ t ∈ ts', Token.StandsIn source' t) (h : ts'.map blanked = ts.map blanked) :
    AllAlike source source' ts ts' := by
  induction ts generalizing ts' with
  | nil =>
    cases List.map_eq_nil_iff.mp h
    exact .nil
  | cons t ts ih =>
    obtain ⟨t', ts', rfl, ht, hrest⟩ := List.map_eq_cons_iff.mp h
    obtain ⟨hstands, hothers⟩ := List.forall_mem_cons.mp hts
    obtain ⟨hstands', hothers'⟩ := List.forall_mem_cons.mp hts'
    obtain ⟨hkind, htext⟩ := Prod.mk.inj ht
    refine .cons ⟨hkind, fun hint => ?_⟩ (ih hothers hothers' hrest)
    rw [hkind, if_neg hint, if_neg hint] at htext
    rw [← hstands.text, ← hstands'.text, htext]

/-- Sources that differ only in their numerals have trees that differ only in their numerals. -/
theorem parse_parallel (hts : tokenize source = .ok ts) (hts' : tokenize source' = .ok ts')
    (hsame : ts'.map blanked = ts.map blanked) {tree : Node} (h : parse source = .ok tree) :
    ∃ tree', parse source' = .ok tree' ∧ tree'.kind = tree.kind ∧
      AllParallel source source' tree.children tree'.children := by
  have halike := allAlike_of_blanked (standsIn_of_tokenize hts) (standsIn_of_tokenize hts') hsame
  unfold parse at h ⊢
  rw [hts] at h
  rw [hts']
  obtain ⟨children, hchildren, h⟩ := bind_eq_ok.mp (mapError_eq_ok.mp h)
  cases h
  obtain ⟨children', hchildren', hparallel⟩ :=
    statements_alike (ts.length + 1) halike children hchildren
  refine ⟨⟨.script, 0, source'.length, children'⟩, mapError_eq_ok.mpr ?_, rfl, hparallel⟩
  unfold ofTokens
  rw [← halike.length_eq, hchildren']
  rfl

end WatCompiler.SyntaxTree
