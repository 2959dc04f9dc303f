import WatCompiler.Proofs.Guarantee.Statements
import WatCompiler.Proofs.Program.Proper

/-!
# Checking proper programs

Checking a proper program gives a proper program, or a fault at a place of one of its parts
(`check_answers`): no operator, literal or name is changed, and no fault is without a place. The
types that it finds are types of the language: they come from definitions, literals, operators and
built-in functions, and what a statement is sure to return is what its function returns.
-/

namespace WatCompiler

/-! ## Types of the language -/

/-- An annotation of a checked program shows itself. -/
theorem Info.proper_iff {P : Position → Prop} {type : Ty} {pos : Position} :
    Info.Proper P (⟨type, pos⟩ : Info Ty) ↔ P pos ∧ type.isKnown = true :=
  ⟨fun h => ⟨h.pos, h.known type rfl⟩,
    fun h => ⟨h.1, fun _ hshown => Option.mem_some.mp hshown ▸ h.2⟩⟩

theorem isKnown_literalType (value : Literal) : value.type.isKnown = true := by
  cases value <;> rfl

theorem UnaryOp.isKnown_type {op : UnaryOp} {type : Ty} (h : op.type? = some type) :
    type.isKnown = true := by
  cases op <;> cases h <;> rfl

/-- Whatever the operands, an operator gives a type of the language. -/
theorem BinaryOp.isKnown_resultType {op : BinaryOp} {type result : Ty}
    (h : op.resultType? type = some result) : result.isKnown = true := by
  unfold BinaryOp.resultType? at h
  split at h <;> cases h <;> rfl

/-- Names in scope have types of the language. -/
structure Scope.Known (scope : Scope) : Prop where
  globals : ∀ name, ∀ type ∈ scope.globals.find? name, type.isKnown = true
  functions : ∀ name, ∀ signature ∈ scope.functions.find? name, signature.returns.isKnown = true
  locals : ∀ name, ∀ type ∈ scope.local? name, type.isKnown = true

/-- A good value under one more name. -/
theorem Table.forall_find?_insert {β : Type} {good : β → Prop} {t : Table β}
    (ht : ∀ name, ∀ value ∈ t.find? name, good value) {name : Text} {value : β}
    (hvalue : good value) : ∀ other, ∀ found ∈ (t.insert name value).find? other, good found := by
  intro other found hfound
  rw [Table.find?_insert] at hfound
  split at hfound
  · exact Option.mem_some.mp hfound ▸ hvalue
  · exact ht other found hfound

namespace Scope.Known

variable {scope : Scope} {name : Text} {type : Ty}

theorem initial : Scope.initial.Known where
  globals _ := nofun
  functions name signature hfind :=
    have hbuiltins : ∀ entry ∈ builtins, entry.2.returns.isKnown = true := by decide
    hbuiltins _ (Table.mem_of_find? hfind)
  locals _ := nofun

/-- A variable has the type of its definition, a local or a global one. -/
theorem lookup? (h : scope.Known) (hfind : scope.lookup? name = some type) :
    type.isKnown = true := by
  rw [Scope.lookup?] at hfind
  cases hlocal : scope.local? name with
  | none =>
    rw [hlocal] at hfind
    exact h.globals name type hfind
  | some found =>
    rw [hlocal] at hfind
    exact h.locals name type (hlocal.trans hfind)

theorem withGlobal (h : scope.Known) (htype : type.isKnown = true) :
    (scope.withGlobal name type).Known :=
  ⟨Table.forall_find?_insert h.globals htype, h.functions, h.locals⟩

theorem withFunction (h : scope.Known) {signature : Signature}
    (hreturns : signature.returns.isKnown = true) : (scope.withFunction name signature).Known :=
  ⟨h.globals, Table.forall_find?_insert h.functions hreturns, h.locals⟩

/-- One more local variable with a type of the language. -/
theorem withLocal (h : scope.Known) (htype : type.isKnown = true) :
    (scope.withLocal name type).Known := by
  have hlocals : ∀ name, ∀ type ∈ Table.find? (scope.locals.getD []) name, type.isKnown = true := by
    intro name type hfind
    refine h.locals name type ?_
    rw [Scope.local?]
    cases hlocals : scope.locals with
    | none =>
      rw [hlocals] at hfind
      cases hfind
    | some table =>
      rw [hlocals] at hfind
      exact hfind
  exact ⟨h.globals, h.functions, Table.forall_find?_insert hlocals htype⟩

/-- A function starts without locals. -/
theorem enter (h : scope.Known) (returns : Ty) : (scope.enter returns).Known :=
  ⟨h.globals, h.functions, fun _ => nofun⟩

end Scope.Known

namespace Typing

variable {α : Type} [WatCompiler.Annotated α] {P : Position → Prop} {scope : Scope}

/-! ## Expressions -/

mutual

/-- Checking a proper expression gives a proper one, or a fault at one of its places. -/
theorem checkExpr_answers (hscope : scope.Known) (e : Expr α) (he : e.Proper P) :
    Answers (P ·.pos) (Expr.Proper P) (checkExpr scope e) := by
  match e with
  | .literal info value =>
    exact ⟨Info.proper_iff.mpr ⟨he.1.pos, isKnown_literalType value⟩, he.2⟩
  | .ident info name =>
    unfold checkExpr
    split
    · exact he.1.pos
    · next hfind => exact ⟨Info.proper_iff.mpr ⟨he.1.pos, hscope.lookup? hfind⟩, he.2⟩
  | .unary info op arg =>
    obtain ⟨hinfo, hop, harg⟩ := he
    refine .bind (checkExpr_answers hscope arg harg) ?_
    intro arg' harg'
    split
    · exact hinfo.pos
    · next htype =>
      split
      · exact ⟨Info.proper_iff.mpr ⟨hinfo.pos, UnaryOp.isKnown_type htype⟩, hop, harg'⟩
      · exact hinfo.pos
  | .binary info op lhs rhs =>
    obtain ⟨hinfo, hop, hlhs, hrhs⟩ := he
    refine .bind (checkExpr_answers hscope lhs hlhs) ?_
    intro lhs' hlhs'
    refine .bind (checkExpr_answers hscope rhs hrhs) ?_
    intro rhs' hrhs'
    dsimp only
    split
    · exact hinfo.pos
    · next htype =>
      have hknown := BinaryOp.isKnown_resultType (Option.ite_none_right_eq_some.mp htype).2
      exact ⟨Info.proper_iff.mpr ⟨hinfo.pos, hknown⟩, hop, hlhs', hrhs'⟩
  | .paren info arg =>
    obtain ⟨hinfo, harg⟩ := he
    refine .bind (checkExpr_answers hscope arg harg) ?_
    intro arg' harg'
    exact ⟨⟨hinfo.pos, harg'.info.known⟩, harg'⟩
  | .call info function args =>
    obtain ⟨hinfo, hname, hargs⟩ := he
    unfold checkExpr
    split
    · exact hinfo.pos
    · next hfind =>
      split
      · exact hinfo.pos
      · refine .bind (checkArgs_answers hscope args hargs) ?_
        intro args' hargs'
        have hreturns := hscope.functions function _ hfind
        exact ⟨Info.proper_iff.mpr ⟨hinfo.pos, hreturns⟩, hname, hargs'⟩

/-- Checking proper arguments gives proper ones, or a fault at one of their places. -/
theorem checkArgs_answers (hscope : scope.Known) (args : List (Expr α))
    (hargs : Expr.AllProper P args) {function : Text} {number : Nat} {params : List Ty} :
    Answers (P ·.pos) (Expr.AllProper P) (checkArgs scope function number params args) := by
  match args with
  | [] => trivial
  | arg :: rest =>
    obtain ⟨harg, hrest⟩ := hargs
    refine .bind (checkExpr_answers hscope arg harg) ?_
    intro first hfirst
    dsimp only
    split
    · exact harg.info.pos
    · refine .bind (checkArgs_answers hscope rest hrest) ?_
      intro others hothers
      exact ⟨hfirst, hothers⟩

end

/-- A condition of another type is a fault at the condition. -/
theorem checkCondition_answers (hscope : scope.Known) {construct : Construct} {test : Expr α}
    (htest : test.Proper P) :
    Answers (P ·.pos) (Expr.Proper P) (checkCondition scope construct test) := by
  refine .bind (checkExpr_answers hscope test htest) ?_
  intro checked hchecked
  split
  · exact hchecked
  · exact htest.info.pos

/-- A variable that may not be assigned to is a fault at the assignment. -/
theorem assignable_answers {pos : Position} (hpos : P pos) {name : Text} :
    Answers (P ·.pos) (fun _ => True) (assignable scope pos name) := by
  unfold assignable
  split
  · trivial
  · split
    · exact hpos
    · trivial
  · exact hpos

/-! ## Statements -/

/-- What statements are sure to return is what one of them is annotated with. -/
theorem isKnown_guarantee {body : List (Stmt Ty)} (h : Stmt.AllProper P body) :
    (guarantee body).isKnown = true := by
  rcases guarantee_cases body with hnone | ⟨s, hs, hann⟩
  · rw [hnone]
    rfl
  · rw [← hann]
    exact (Stmt.allProper_iff.mp h s hs).info.known _ rfl

/-- An arm is sure to return what its body does, or nothing. -/
theorem isKnown_armGuarantee {body : List (Stmt Ty)} (h : Stmt.AllProper P body)
    (test : Option (Expr Ty)) (orElse : Option (Stmt Ty)) :
    (armGuarantee test body orElse).isKnown = true := by
  unfold armGuarantee
  split
  · exact isKnown_guarantee h
  · rfl
  · split
    · rfl
    · exact isKnown_guarantee h

mutual

/-- Checking a proper statement gives a proper one, or a fault at one of its places. -/
theorem checkStmt_answers (hscope : scope.Known) (s : Stmt α) (hs : s.Proper P) :
    Answers (P ·.pos) (Stmt.Proper P) (checkStmt scope s) := by
  have hnone : ∀ {pos}, P pos → Info.Proper P (⟨.none, pos⟩ : Info Ty) :=
    fun hpos => Info.proper_iff.mpr ⟨hpos, rfl⟩
  match s with
  | .assign info target value =>
    obtain ⟨hinfo, htarget, hvalue⟩ := hs
    refine .bind (assignable_answers hinfo.pos) ?_
    intro type _
    refine .bind (checkExpr_answers hscope value hvalue) ?_
    intro value' hvalue'
    split
    · exact ⟨hnone hinfo.pos, htarget, hvalue'⟩
    · exact hinfo.pos
  | .expr info value =>
    obtain ⟨hinfo, hvalue⟩ := hs
    refine .bind (checkExpr_answers hscope value hvalue) ?_
    intro value' hvalue'
    exact ⟨hnone hinfo.pos, hvalue'⟩
  | .ret info value =>
    obtain ⟨hinfo, hvalue⟩ := hs
    unfold checkStmt
    split
    · split
      · exact ⟨hnone hinfo.pos, fun _ he => by cases he⟩
      · next value =>
        refine .bind (checkExpr_answers hscope value (hvalue value rfl)) ?_
        intro value' hvalue'
        split
        · next hann => exact ⟨⟨hinfo.pos, hann ▸ hvalue'.info.known⟩, by simpa using hvalue'⟩
        · exact hinfo.pos
    · exact hinfo.pos
  | .while_ info test body =>
    obtain ⟨hinfo, htest, hbody⟩ := hs
    refine .bind (checkCondition_answers hscope htest) ?_
    intro test' htest'
    refine .bind (checkStmts_answers hscope body hbody) ?_
    intro body' hbody'
    exact ⟨hnone hinfo.pos, htest', hbody'⟩
  | .cond info test body orElse =>
    obtain ⟨hinfo, htest, hbody, horElse, hlast⟩ := hs
    -- What follows the test is the same with and without one.
    have hrest : ∀ test' : Option (Expr Ty),
        (∀ e ∈ test', e.Proper P) ∧ (test' = none → test = none) →
        Answers (P ·.pos) (Stmt.Proper P) (do
          let body ← checkStmts scope body
          let orElse ← checkArm scope orElse
          pure (.cond ⟨armGuarantee test' body orElse, info.pos⟩ test' body orElse)) := by
      rintro test' ⟨htest', htested⟩
      refine .bind (checkStmts_answers hscope body hbody) ?_
      intro body' hbody'
      refine .bind (checkArm_answers hscope orElse horElse) ?_
      rintro orElse' ⟨horElse', hnext⟩
      have hknown := isKnown_armGuarantee hbody' test' orElse'
      exact ⟨Info.proper_iff.mpr ⟨hinfo.pos, hknown⟩, htest', hbody', horElse',
        fun hno => hnext (hlast (htested hno))⟩
    cases test with
    | none => exact hrest none ⟨fun _ he => (by cases he), fun _ => rfl⟩
    | some test =>
      have hcondition : Answers (P ·.pos)
          (fun test' => (∀ e ∈ test', Expr.Proper P e) ∧ (test' = none → some test = none))
          (some <$> checkCondition scope .conditional test) := by
        refine .bind (checkCondition_answers hscope (htest test rfl)) ?_
        intro test' htest'
        exact ⟨fun e he => Option.mem_some.mp he ▸ htest', fun hno => by cases hno⟩
      exact .bind hcondition hrest
  | .pass info => exact hnone hs.pos

theorem checkStmts_answers (hscope : scope.Known) (body : List (Stmt α))
    (hbody : Stmt.AllProper P body) :
    Answers (P ·.pos) (Stmt.AllProper P) (checkStmts scope body) := by
  match body with
  | [] => trivial
  | s :: rest =>
    refine .bind (checkStmt_answers hscope s hbody.1) ?_
    intro first hfirst
    refine .bind (checkStmts_answers hscope rest hbody.2) ?_
    intro others hothers
    exact ⟨hfirst, hothers⟩

/-- Where no arm follows, none follows after checking. -/
theorem checkArm_answers (hscope : scope.Known) (arm : Option (Stmt α))
    (harm : Stmt.ArmProper P arm) :
    Answers (P ·.pos) (fun arm' => Stmt.ArmProper P arm' ∧ (arm = none → arm' = none))
      (checkArm scope arm) := by
  match arm with
  | none => exact ⟨trivial, fun _ => rfl⟩
  | some next =>
    refine .bind (checkStmt_answers hscope next harm) ?_
    intro next' hnext'
    exact ⟨hnext', fun hno => by cases hno⟩

end

/-! ## Definitions -/

/-- Checking annotates a definition with the type that it declares. -/
theorem declared_self {type : Ty} {pos : Position} :
    ∀ shown ∈ Annotated.shown (⟨type, pos⟩ : Info Ty).ann, shown = type :=
  fun _ hshown => (Option.mem_some.mp hshown).symm

theorem checkVarDef_answers {v : VarDef α} (hv : v.Proper P) :
    Answers (P ·.pos) (VarDef.Proper P) (checkVarDef v) := by
  unfold checkVarDef
  split
  · exact ⟨hv.pos, Info.proper_iff.mpr ⟨hv.literalInfo.pos, isKnown_literalType _⟩, hv.name,
      hv.type, hv.literal, declared_self⟩
  · exact hv.pos

/-- Global variables of a proper program bring types of the language into scope. -/
theorem checkGlobals_answers (hscope : scope.Known) {vs : List (VarDef α)}
    (hvs : ∀ v ∈ vs, v.Proper P) :
    Answers (P ·.pos) (fun answer => answer.1.Known ∧ ∀ v ∈ answer.2, v.Proper P)
      (checkGlobals scope vs) := by
  induction vs generalizing scope with
  | nil => exact ⟨hscope, List.forall_mem_nil _⟩
  | cons v rest ih =>
    obtain ⟨hv, hrest⟩ := List.forall_mem_cons.mp hvs
    unfold checkGlobals
    split
    · exact hv.pos
    split
    · exact hv.pos
    · refine .bind (checkVarDef_answers hv) ?_
      intro first hfirst
      refine .bind (ih (hscope.withGlobal hv.type) hrest) ?_
      rintro ⟨inner, others⟩ ⟨hinner, hothers⟩
      exact ⟨hinner, List.forall_mem_cons.mpr ⟨hfirst, hothers⟩⟩

/-- So do the functions of a program. -/
theorem declareFunctions_answers (hscope : scope.Known) {fs : List (FuncDef α)}
    (hfs : ∀ f ∈ fs, f.Proper P) :
    Answers (P ·.pos) Scope.Known (declareFunctions scope fs) := by
  induction fs generalizing scope with
  | nil => exact hscope
  | cons f rest ih =>
    obtain ⟨hf, hrest⟩ := List.forall_mem_cons.mp hfs
    unfold declareFunctions
    split
    · exact hf.pos
    split
    · exact hf.pos
    split
    · exact hf.pos
    · exact ih (hscope.withFunction hf.returns) hrest

theorem declareLocal_answers (hscope : scope.Known) {function : Text} {pos : Position}
    (hpos : P pos) {name : Text} {type : Ty} (htype : type.isKnown = true) :
    Answers (P ·.pos) Scope.Known (declareLocal scope function pos name type) := by
  unfold declareLocal
  split
  · exact hpos
  split
  · exact hpos
  · exact hscope.withLocal htype

theorem checkParams_answers (hscope : scope.Known) {function : Text} {ps : List (Param α)}
    (hps : ∀ p ∈ ps, p.Proper P) :
    Answers (P ·.pos) (fun answer => answer.1.Known ∧ ∀ p ∈ answer.2, p.Proper P)
      (checkParams scope function ps) := by
  induction ps generalizing scope with
  | nil => exact ⟨hscope, List.forall_mem_nil _⟩
  | cons p rest ih =>
    obtain ⟨hp, hrest⟩ := List.forall_mem_cons.mp hps
    refine .bind (declareLocal_answers hscope hp.pos hp.type) ?_
    intro inner hinner
    refine .bind (ih hinner hrest) ?_
    rintro ⟨last, others⟩ ⟨hlast, hothers⟩
    exact ⟨hlast, List.forall_mem_cons.mpr ⟨⟨hp.pos, hp.name, hp.type, declared_self⟩, hothers⟩⟩

/-- So do the variables of a function, each checked behind the one before. -/
theorem checkLocals_answers (hscope : scope.Known) {function : Text} {vs : List (VarDef α)}
    (hvs : ∀ v ∈ vs, v.Proper P) :
    Answers (P ·.pos) (fun answer => answer.1.Known ∧ ∀ v ∈ answer.2, v.Proper P)
      (checkLocals scope function vs) := by
  induction vs generalizing scope with
  | nil => exact ⟨hscope, List.forall_mem_nil _⟩
  | cons v rest ih =>
    obtain ⟨hv, hrest⟩ := List.forall_mem_cons.mp hvs
    refine .bind (declareLocal_answers hscope hv.pos hv.type) ?_
    intro inner hinner
    refine .bind (checkVarDef_answers hv) ?_
    intro first hfirst
    refine .bind (ih hinner hrest) ?_
    rintro ⟨last, others⟩ ⟨hlast, hothers⟩
    exact ⟨hlast, List.forall_mem_cons.mpr ⟨hfirst, hothers⟩⟩

/-- Checking a proper function gives a proper one, or a fault at one of its places. -/
theorem checkFuncDef_answers (hscope : scope.Known) {f : FuncDef α} (hf : f.Proper P) :
    Answers (P ·.pos) (FuncDef.Proper P) (checkFuncDef scope f) := by
  refine .bind (checkParams_answers (hscope.enter f.returns) hf.params) ?_
  rintro ⟨scope₁, params⟩ ⟨hscope₁, hparams⟩
  refine .bind (checkLocals_answers hscope₁ hf.locals) ?_
  rintro ⟨scope₂, locals⟩ ⟨hscope₂, hlocals⟩
  refine .bind (checkStmts_answers hscope₂ f.stmts hf.stmts) ?_
  intro stmts hstmts
  have hguarantee : Answers (P ·.pos) (fun _ => True) (checkGuarantee f (guarantee stmts)) := by
    unfold checkGuarantee
    split
    · trivial
    split
    · exact hf.pos
    split
    · exact hf.pos
    · exact hf.pos
  refine .bind hguarantee ?_
  intro _ _
  exact ⟨hf.pos, Info.proper_iff.mpr ⟨hf.body.pos, isKnown_guarantee hstmts⟩, hf.name, hparams,
    hf.returns, hlocals, hstmts⟩

theorem checkFunctions_answers (hscope : scope.Known) {fs : List (FuncDef α)}
    (hfs : ∀ f ∈ fs, f.Proper P) :
    Answers (P ·.pos) (fun fs' => ∀ f ∈ fs', FuncDef.Proper P f) (checkFunctions scope fs) := by
  induction fs with
  | nil => exact List.forall_mem_nil _
  | cons f rest ih =>
    obtain ⟨hf, hrest⟩ := List.forall_mem_cons.mp hfs
    refine .bind (checkFuncDef_answers hscope hf) ?_
    intro first hfirst
    refine .bind (ih hrest) ?_
    intro others hothers
    exact List.forall_mem_cons.mpr ⟨hfirst, hothers⟩

end Typing

/-- Checking a proper program gives a proper program or a fault at one of its places. -/
theorem check_answers {α : Type} [WatCompiler.Annotated α] {P : Position → Prop} {p : Program α}
    (hp : p.Proper P) : Answers (P ·.pos) (Program.Proper P) p.check := by
  refine .bind (Typing.checkGlobals_answers .initial hp.globals) ?_
  rintro ⟨scope₁, globals⟩ ⟨hscope₁, hglobals⟩
  refine .bind (Typing.declareFunctions_answers hscope₁ hp.functions) ?_
  intro scope₂ hscope₂
  refine .bind (Typing.checkFunctions_answers hscope₂ hp.functions) ?_
  intro functions hfunctions
  refine .bind (Typing.checkStmts_answers hscope₂ p.stmts hp.stmts) ?_
  intro stmts hstmts
  exact ⟨hglobals, hfunctions, hstmts⟩

end WatCompiler
