import WatCompiler.Proofs.Typing.Inversion

/-!
# Well-typed programs

What the annotations of a checked program mean, said of the annotated program alone. Names and their
types come from a scope; the scope of a program and of a function body can be read off the program.

Checking goes through the definitions one by one with a scope that grows, but what it asks for in
the end is symmetric (`check_eq_ok_iff`): no name has two meanings, and every part is accepted in
the scope of the whole program. So checking gives well-typed programs (`wellTyped_of_check`).
-/

namespace WatCompiler

open Typing

mutual

/-- Every part of an expression has the type that its annotation says. -/
def Expr.WellTyped (scope : Scope) : Expr Ty → Prop
  | .literal info value => info.ann = value.type
  | .ident info name => scope.lookup? name = some info.ann
  | .unary info op arg =>
    arg.WellTyped scope ∧ op.type? = some info.ann ∧ arg.info.ann = info.ann
  | .binary info op lhs rhs =>
    lhs.WellTyped scope ∧ rhs.WellTyped scope ∧ lhs.info.ann = rhs.info.ann ∧
      op.resultType? lhs.info.ann = some info.ann
  | .paren info arg => arg.WellTyped scope ∧ arg.info.ann = info.ann
  | .call info function args =>
    ∃ signature, scope.functions.find? function = some signature ∧
      signature.params.length = args.length ∧ ArgsTyped scope signature.params args ∧
      signature.returns = info.ann

/-- The arguments have the types of the parameters. -/
def ArgsTyped (scope : Scope) (params : List Ty) : List (Expr Ty) → Prop
  | [] => True
  | arg :: rest =>
    arg.WellTyped scope ∧ (params.headD .any ≠ .any → arg.info.ann = params.headD .any) ∧
      ArgsTyped scope params.tail rest

end

/-- The type of a variable that may be assigned to. -/
def Scope.assignable? (scope : Scope) (name : Text) : Option Ty :=
  scope.local? name <|> if scope.inFunction then none else scope.globals.find? name

mutual

/-- Every expression in a statement is well typed, and has the type that its place asks for. -/
def Stmt.WellTyped (scope : Scope) : Stmt Ty → Prop
  | .assign _ target value =>
    value.WellTyped scope ∧ scope.assignable? target = some value.info.ann
  | .expr _ value => value.WellTyped scope
  | .ret _ none => scope.inFunction = true
  | .ret _ (some value) =>
    scope.inFunction = true ∧ value.WellTyped scope ∧ value.info.ann = scope.returns
  | .while_ _ test body =>
    test.WellTyped scope ∧ test.info.ann = .bool ∧ StmtsTyped scope body
  | .cond _ test body orElse =>
    (∀ t ∈ test, t.WellTyped scope ∧ t.info.ann = .bool) ∧ StmtsTyped scope body ∧
      ArmTyped scope orElse
  | .pass _ => True

/-- All statements are well typed. -/
def StmtsTyped (scope : Scope) : List (Stmt Ty) → Prop
  | [] => True
  | s :: rest => s.WellTyped scope ∧ StmtsTyped scope rest

/-- The next arm of a conditional, if there is one, is well typed. -/
def ArmTyped (scope : Scope) : Option (Stmt Ty) → Prop
  | none => True
  | some next => next.WellTyped scope

end

variable {α : Type}

/-- The types that calls of a function go by. -/
def FuncDef.signature (f : FuncDef α) : Signature := ⟨f.params.map Param.type, f.returns⟩

/-- The parameters and local variables of a function with their types. -/
def FuncDef.localTypes (f : FuncDef α) : Table Ty :=
  f.params.map (fun p => (p.name, p.type)) ++ f.locals.map fun v => (v.name, v.type)

/-- What names mean at the top level of a program. -/
def Program.scope (p : Program α) : Scope where
  globals := p.globals.map fun v => (v.name, v.type)
  functions := builtins ++ p.functions.map fun f => (f.name, f.signature)
  locals := none
  returns := .other []

/-- What names mean in the body of a function. -/
def FuncDef.scope (outer : Scope) (f : FuncDef α) : Scope :=
  { outer with locals := some f.localTypes, returns := f.returns }

/-- The parameters and local variables have different names, no names of built-in functions, the
initial values have the declared types, and the body is well typed. -/
structure FuncDef.WellTyped (outer : Scope) (f : FuncDef Ty) : Prop where
  distinct : f.localTypes.names.Nodup
  literals : ∀ v ∈ f.locals, v.literal.type = v.type
  body : StmtsTyped (f.scope outer) f.stmts

/-- The global variables have different names and so do the functions, built-in ones included, the
initial values have the declared types, and all code is well typed. -/
structure Program.WellTyped (p : Program Ty) : Prop where
  distinctGlobals : p.scope.globals.names.Nodup
  distinctFunctions : p.scope.functions.names.Nodup
  literals : ∀ v ∈ p.globals, v.literal.type = v.type
  functions : ∀ f ∈ p.functions, f.WellTyped p.scope
  body : StmtsTyped p.scope p.stmts

/-! ## Checking expressions and statements -/

namespace Typing

variable {scope : Scope}

mutual

/-- An expression that is accepted is well typed. -/
theorem wellTyped_of_checkExpr (e : Expr α) {e' : Expr Ty} (h : checkExpr scope e = .ok e') :
    e'.WellTyped scope := by
  match e with
  | .literal info value =>
    cases h
    rfl
  | .ident info name =>
    obtain ⟨type, htype, rfl⟩ := checkExpr_ident_eq_ok.mp h
    exact htype
  | .unary info op arg =>
    obtain ⟨arg', harg, htype, rfl⟩ := checkExpr_unary_eq_ok.mp h
    exact ⟨wellTyped_of_checkExpr arg harg, htype, rfl⟩
  | .binary info op lhs rhs =>
    obtain ⟨lhs', hlhs, rhs', hrhs, hsame, type, htype, rfl⟩ := checkExpr_binary_eq_ok.mp h
    exact ⟨wellTyped_of_checkExpr lhs hlhs, wellTyped_of_checkExpr rhs hrhs, hsame, htype⟩
  | .paren info arg =>
    obtain ⟨arg', harg, rfl⟩ := checkExpr_paren_eq_ok.mp h
    exact ⟨wellTyped_of_checkExpr arg harg, rfl⟩
  | .call info function args =>
    obtain ⟨signature, hsignature, hlen, args', hargs, rfl⟩ := checkExpr_call_eq_ok.mp h
    obtain ⟨hlen', htyped⟩ := argsTyped_of_checkArgs args hargs
    exact ⟨signature, hsignature, hlen.trans hlen'.symm, htyped, rfl⟩

/-- Arguments that are accepted are well typed and fit the parameters. -/
theorem argsTyped_of_checkArgs (args : List (Expr α)) {function : Text} {number : Nat}
    {params : List Ty} {args' : List (Expr Ty)}
    (h : checkArgs scope function number params args = .ok args') :
    args'.length = args.length ∧ ArgsTyped scope params args' := by
  match args with
  | [] =>
    cases h
    exact ⟨rfl, trivial⟩
  | arg :: rest =>
    obtain ⟨first, hfirst, htype, others, hothers, rfl⟩ := checkArgs_cons_eq_ok.mp h
    obtain ⟨hlen, htyped⟩ := argsTyped_of_checkArgs rest hothers
    refine ⟨by rw [List.length_cons, hlen, List.length_cons], ?_, htype, htyped⟩
    exact wellTyped_of_checkExpr arg hfirst

end

theorem wellTyped_of_checkCondition {construct : Construct} {test : Expr α} {test' : Expr Ty}
    (h : checkCondition scope construct test = .ok test') :
    test'.WellTyped scope ∧ test'.info.ann = .bool := by
  obtain ⟨hchecked, hann⟩ := checkCondition_eq_ok.mp h
  exact ⟨wellTyped_of_checkExpr test hchecked, hann⟩

/-- What can be assigned to is a local or a global variable. -/
theorem assignable?_of_assignable {pos : Position} {name : Text} {type : Ty}
    (h : assignable scope pos name = .ok type) : scope.assignable? name = some type := by
  unfold assignable at h
  split at h
  · next hlocal =>
    cases h
    rw [Scope.assignable?, hlocal]
    rfl
  · next hlocal hglobal =>
    split at h
    · cases h
    · next hfunction =>
      cases h
      rw [Scope.assignable?, hlocal, if_neg hfunction, hglobal]
      rfl
  · cases h

mutual

/-- A statement that is accepted is well typed. -/
theorem wellTyped_of_checkStmt (s : Stmt α) {s' : Stmt Ty} (h : checkStmt scope s = .ok s') :
    s'.WellTyped scope := by
  match s with
  | .assign info target value =>
    obtain ⟨value', htype, hvalue, rfl⟩ := checkStmt_assign_eq_ok.mp h
    exact ⟨wellTyped_of_checkExpr value hvalue, assignable?_of_assignable htype⟩
  | .expr info value =>
    obtain ⟨value', hvalue, rfl⟩ := checkStmt_expr_eq_ok.mp h
    exact wellTyped_of_checkExpr value hvalue
  | .ret info none =>
    obtain ⟨hfunction, rfl⟩ := checkStmt_bare_eq_ok.mp h
    exact hfunction
  | .ret info (some value) =>
    obtain ⟨hfunction, value', hvalue, hann, rfl⟩ := checkStmt_ret_eq_ok.mp h
    exact ⟨hfunction, wellTyped_of_checkExpr value hvalue, hann⟩
  | .while_ info test body =>
    obtain ⟨test', htest, body', hbody, rfl⟩ := checkStmt_while_eq_ok.mp h
    obtain ⟨htyped, hann⟩ := wellTyped_of_checkCondition htest
    exact ⟨htyped, hann, stmtsTyped_of_checkStmts body hbody⟩
  | .cond info none body orElse =>
    obtain ⟨body', hbody, orElse', horElse, rfl⟩ := checkStmt_else_eq_ok.mp h
    exact ⟨fun _ ht => (nomatch ht), stmtsTyped_of_checkStmts body hbody,
      armTyped_of_checkArm orElse horElse⟩
  | .cond info (some test) body orElse =>
    obtain ⟨test', htest, body', hbody, orElse', horElse, rfl⟩ := checkStmt_cond_eq_ok.mp h
    refine ⟨?_, stmtsTyped_of_checkStmts body hbody, armTyped_of_checkArm orElse horElse⟩
    intro t ht
    cases ht
    exact wellTyped_of_checkCondition htest
  | .pass info =>
    cases h
    trivial

theorem stmtsTyped_of_checkStmts (body : List (Stmt α)) {body' : List (Stmt Ty)}
    (h : checkStmts scope body = .ok body') : StmtsTyped scope body' := by
  match body with
  | [] =>
    cases h
    trivial
  | s :: rest =>
    obtain ⟨first, hfirst, others, hothers, rfl⟩ := checkStmts_cons_eq_ok.mp h
    exact ⟨wellTyped_of_checkStmt s hfirst, stmtsTyped_of_checkStmts rest hothers⟩

theorem armTyped_of_checkArm (arm : Option (Stmt α)) {arm' : Option (Stmt Ty)}
    (h : checkArm scope arm = .ok arm') : ArmTyped scope arm' := by
  match arm with
  | none =>
    cases h
    trivial
  | some next =>
    obtain ⟨next', hnext, rfl⟩ := checkArm_some_eq_ok.mp h
    exact wellTyped_of_checkStmt next hnext

end

/-! ## Checking definitions -/

section Checked

variable {β γ ε : Type} {check : β → Except ε γ} {bs : List β} {cs : List γ}

/-- What each of some things is checked as is good, if the things are. -/
theorem forall_mem_of_map_eq_ok (h : bs.map check = cs.map .ok) {good : γ → Prop}
    (hgood : ∀ b ∈ bs, ∀ c, check b = .ok c → good c) : ∀ c ∈ cs, good c := by
  intro c hc
  have hmem : (.ok c : Except ε γ) ∈ bs.map check := h ▸ List.mem_map_of_mem hc
  obtain ⟨b, hb, hcheck⟩ := List.mem_map.mp hmem
  exact hgood b hb c hcheck

/-- What checking keeps of each of some things it keeps of all of them. -/
theorem map_eq_map_of_map_eq_ok {δ : Type} (h : bs.map check = cs.map .ok) {f : β → δ} {g : γ → δ}
    (hkeeps : ∀ b c, check b = .ok c → g c = f b) : cs.map g = bs.map f := by
  induction bs generalizing cs with
  | nil => rw [List.map_eq_nil_iff.mp h.symm, List.map_nil, List.map_nil]
  | cons b rest ih =>
    cases cs with
    | nil => cases h
    | cons c others =>
      obtain ⟨hc, hothers⟩ := List.cons.inj h
      rw [List.map_cons, List.map_cons, hkeeps b c hc, ih hothers]

end Checked

/-- An accepted definition keeps its name and type, which the initial value has, too. -/
theorem wellTyped_of_checkVarDef {v : VarDef α} {v' : VarDef Ty} (h : checkVarDef v = .ok v') :
    v'.name = v.name ∧ v'.type = v.type ∧ v'.literal.type = v'.type := by
  obtain ⟨htype, rfl⟩ := checkVarDef_eq_ok.mp h
  exact ⟨rfl, rfl, htype⟩

theorem nodup_names_concat {t : Table Ty} {name : Text} (type : Ty) (h : t.names.Nodup)
    (hname : name ∉ t.names) : Table.names (t ++ [(name, type)]) |>.Nodup := by
  have hinsert := Table.nodup_names_insert name type h
  rwa [Table.insert_of_not_mem type hname] at hinsert

/-- Global variables are accepted if their names are new and their initial values fit. -/
theorem checkGlobals_eq_ok_iff {vs : List (VarDef α)} {inner : Scope} {vs' : List (VarDef Ty)}
    (hn : scope.globals.names.Nodup) :
    checkGlobals scope vs = .ok (inner, vs') ↔
      (scope.globals.names ++ vs.map VarDef.name).Nodup ∧
      (∀ v ∈ vs, v.name ∉ scope.functions.names) ∧ vs.map checkVarDef = vs'.map .ok ∧
      inner = { scope with globals := scope.globals ++ vs.map fun v => (v.name, v.type) } := by
  induction vs generalizing scope vs' with
  | nil =>
    rw [checkGlobals, List.map_nil, List.append_nil]
    constructor
    · intro h
      cases h
      refine ⟨hn, List.forall_mem_nil _, rfl, ?_⟩
      rw [List.map_nil, List.append_nil]
    · rintro ⟨-, -, hvs, rfl⟩
      rw [List.map_nil] at hvs
      rw [List.map_eq_nil_iff.mp hvs.symm, List.map_nil, List.append_nil]
  | cons v rest ih =>
    -- A new name comes last in the scope that grows, so the names of the scope and of the
    -- definitions that are left make the same list at every step.
    have hnames : ∀ hnew : v.name ∉ scope.globals.names,
        (scope.withGlobal v.name v.type).globals = scope.globals ++ [(v.name, v.type)] :=
      fun hnew => Table.insert_of_not_mem v.type hnew
    rw [checkGlobals]
    constructor
    · intro h
      split at h
      · cases h
      next hfunction =>
      split at h
      · cases h
      next hglobal =>
      have hnew : v.name ∉ scope.globals.names := fun hmem => hglobal (Table.has_iff_mem.mpr hmem)
      obtain ⟨first, hfirst, h⟩ := bind_eq_ok.mp h
      obtain ⟨⟨last, others⟩, hothers, h⟩ := bind_eq_ok.mp h
      cases h
      obtain ⟨hnodup, hfunctions, hvs, rfl⟩ :=
        (ih (Table.nodup_names_insert v.name v.type hn)).mp hothers
      rw [hnames hnew, Table.names_append, List.append_assoc] at hnodup
      refine ⟨hnodup, List.forall_mem_cons.mpr ⟨?_, hfunctions⟩, ?_, ?_⟩
      · exact fun hmem => hfunction (Table.has_iff_mem.mpr hmem)
      · rw [List.map_cons, List.map_cons, hfirst, hvs]
      · rw [hnames hnew, List.append_assoc]
        rfl
    · rintro ⟨hnodup, hfunctions, hvs, rfl⟩
      obtain ⟨hfunction, hrest⟩ := List.forall_mem_cons.mp hfunctions
      have hnew : v.name ∉ scope.globals.names := fun hmem =>
        (List.nodup_append.mp hnodup).2.2 v.name hmem v.name List.mem_cons_self rfl
      cases vs' with
      | nil => cases hvs
      | cons first others =>
        obtain ⟨hfirst, hothers⟩ := List.cons.inj hvs
        rw [if_neg fun hhas => hfunction (Table.has_iff_mem.mp hhas),
          if_neg fun hhas => hnew (Table.has_iff_mem.mp hhas), bind_eq_ok]
        refine ⟨first, hfirst, bind_eq_ok.mpr ⟨(_, others),
          (ih (Table.nodup_names_insert v.name v.type hn)).mpr ⟨?_, hrest, hothers, ?_⟩, rfl⟩⟩
        · rw [hnames hnew, Table.names_append, List.append_assoc]
          exact hnodup
        · rw [hnames hnew, List.append_assoc]
          rfl

/-- Functions are declared if their names are new. -/
theorem declareFunctions_eq_ok_iff {fs : List (FuncDef α)} {inner : Scope}
    (hn : scope.functions.names.Nodup)
    (hbuiltins : ∀ name ∈ builtins.names, name ∈ scope.functions.names) :
    declareFunctions scope fs = .ok inner ↔
      (scope.functions.names ++ fs.map FuncDef.name).Nodup ∧
      (∀ f ∈ fs, f.name ∉ scope.globals.names) ∧
      inner =
        { scope with functions := scope.functions ++ fs.map fun f => (f.name, f.signature) } := by
  induction fs generalizing scope with
  | nil =>
    rw [declareFunctions, List.map_nil, List.append_nil, List.map_nil, List.append_nil]
    constructor
    · intro h
      cases h
      exact ⟨hn, List.forall_mem_nil _, rfl⟩
    · rintro ⟨-, -, rfl⟩
      rfl
  | cons f rest ih =>
    have hnames : ∀ hnew : f.name ∉ scope.functions.names,
        (scope.withFunction f.name f.signature).functions =
          scope.functions ++ [(f.name, f.signature)] :=
      fun hnew => Table.insert_of_not_mem f.signature hnew
    have hknown : ∀ hnew : f.name ∉ scope.functions.names, ∀ name ∈ builtins.names,
        name ∈ (scope.withFunction f.name f.signature).functions.names := by
      intro hnew name hname
      rw [hnames hnew, Table.names_append]
      exact List.mem_append_left _ (hbuiltins name hname)
    rw [declareFunctions]
    constructor
    · intro h
      split at h
      · cases h
      split at h
      · cases h
      next hfunction =>
      split at h
      · cases h
      next hglobal =>
      have hnew : f.name ∉ scope.functions.names :=
        fun hmem => hfunction (Table.has_iff_mem.mpr hmem)
      obtain ⟨hnodup, hglobals, rfl⟩ :=
        (ih (Table.nodup_names_insert f.name f.signature hn) (hknown hnew)).mp h
      rw [hnames hnew, Table.names_append, List.append_assoc] at hnodup
      refine ⟨hnodup, List.forall_mem_cons.mpr ⟨?_, hglobals⟩, ?_⟩
      · exact fun hmem => hglobal (Table.has_iff_mem.mpr hmem)
      · rw [hnames hnew, List.append_assoc]
        rfl
    · rintro ⟨hnodup, hglobals, rfl⟩
      obtain ⟨hglobal, hrest⟩ := List.forall_mem_cons.mp hglobals
      have hnew : f.name ∉ scope.functions.names := fun hmem =>
        (List.nodup_append.mp hnodup).2.2 f.name hmem f.name List.mem_cons_self rfl
      -- The test for built-in functions is one for functions that are in scope already.
      rw [if_neg fun hhas => hnew (hbuiltins _ (Table.has_iff_mem.mp hhas)),
        if_neg fun hhas => hnew (Table.has_iff_mem.mp hhas),
        if_neg fun hhas => hglobal (Table.has_iff_mem.mp hhas)]
      refine (ih (Table.nodup_names_insert f.name f.signature hn) (hknown hnew)).mpr ⟨?_, hrest, ?_⟩
      · rw [hnames hnew, Table.names_append, List.append_assoc]
        exact hnodup
      · rw [hnames hnew, List.append_assoc]
        rfl

/-- A local name that is declared is new in its function. -/
theorem declareLocal_eq_ok {function : Text} {pos : Position} {name : Text} {type : Ty}
    {scope' : Scope} {known : Table Ty} (hknown : scope.locals = some known)
    (h : declareLocal scope function pos name type = .ok scope') :
    scope' = { scope with locals := some (known ++ [(name, type)]) } ∧ name ∉ known.names := by
  unfold declareLocal at h
  split at h
  · cases h
  split at h
  · cases h
  next hnew =>
  cases h
  have hnew' : name ∉ known.names := by
    rw [Scope.local?, hknown] at hnew
    exact fun hmem => hnew (Table.has_iff_mem.mpr hmem)
  refine ⟨?_, hnew'⟩
  rw [Scope.withLocal, hknown]
  simp only [Option.getD_some, Table.insert_of_not_mem type hnew']

/-- Parameters come into scope in order, under different names. -/
theorem checkParams_eq_ok {function : Text} {ps : List (Param α)} {scope' : Scope}
    {ps' : List (Param Ty)} {known : Table Ty} (hknown : scope.locals = some known)
    (h : checkParams scope function ps = .ok (scope', ps')) (hn : known.names.Nodup) :
    scope' = { scope with locals := some (known ++ ps'.map fun p => (p.name, p.type)) } ∧
      (Table.names (known ++ ps'.map fun p => (p.name, p.type))).Nodup ∧
      ps'.map Param.name = ps.map Param.name ∧ ps'.map Param.type = ps.map Param.type := by
  induction ps generalizing scope ps' known with
  | nil =>
    cases h
    rw [List.map_nil, List.append_nil, ← hknown]
    exact ⟨rfl, hn, rfl, rfl⟩
  | cons p rest ih =>
    obtain ⟨inner, hinner, others, hothers, rfl⟩ := checkParams_cons_eq_ok.mp h
    obtain ⟨rfl, hnew⟩ := declareLocal_eq_ok hknown hinner
    obtain ⟨hscope, hnodup, hnames, htypes⟩ := ih rfl hothers (nodup_names_concat p.type hn hnew)
    rw [List.append_assoc] at hscope hnodup
    exact ⟨hscope, hnodup, congrArg (p.name :: ·) hnames, congrArg (p.type :: ·) htypes⟩

/-- And so do local variables. -/
theorem checkLocals_eq_ok {function : Text} {vs : List (VarDef α)} {scope' : Scope}
    {vs' : List (VarDef Ty)} {known : Table Ty} (hknown : scope.locals = some known)
    (h : checkLocals scope function vs = .ok (scope', vs')) (hn : known.names.Nodup) :
    scope' = { scope with locals := some (known ++ vs'.map fun v => (v.name, v.type)) } ∧
      (Table.names (known ++ vs'.map fun v => (v.name, v.type))).Nodup ∧
      vs'.map VarDef.name = vs.map VarDef.name ∧ ∀ v ∈ vs', v.literal.type = v.type := by
  induction vs generalizing scope vs' known with
  | nil =>
    cases h
    rw [List.map_nil, List.append_nil, ← hknown]
    exact ⟨rfl, hn, rfl, fun _ hv => (nomatch hv)⟩
  | cons v rest ih =>
    obtain ⟨inner, hinner, first, hfirst, others, hothers, rfl⟩ := checkLocals_cons_eq_ok.mp h
    obtain ⟨rfl, hnew⟩ := declareLocal_eq_ok hknown hinner
    obtain ⟨hname, htype, hliteral⟩ := wellTyped_of_checkVarDef hfirst
    obtain ⟨hscope, hnodup, hnames, hliterals⟩ :=
      ih rfl hothers (nodup_names_concat v.type hn hnew)
    rw [← hname, ← htype, List.append_assoc] at hscope hnodup
    refine ⟨hscope, hnodup, ?_, List.forall_mem_cons.mpr ⟨hliteral, hliterals⟩⟩
    rw [List.map_cons, List.map_cons, hname, hnames]

/-- The scope in which the statements of a function are checked. -/
theorem scope_of_checkLocals {f : FuncDef α} {scope₁ scope₂ : Scope} {params : List (Param Ty)}
    {locals : List (VarDef Ty)}
    (hparams : checkParams (scope.enter f.returns) f.name f.params = .ok (scope₁, params))
    (hlocals : checkLocals scope₁ f.name f.locals = .ok (scope₂, locals)) :
    scope₂ = { scope with
      locals :=
        some (params.map (fun p => (p.name, p.type)) ++ locals.map fun v => (v.name, v.type))
      returns := f.returns } := by
  obtain ⟨rfl, hnodup, -⟩ :=
    checkParams_eq_ok rfl hparams (show (Table.names []).Nodup from List.nodup_nil)
  obtain ⟨rfl, -⟩ := checkLocals_eq_ok rfl hlocals hnodup
  rfl

/-- What checking keeps of a function. -/
structure SameNames (f : FuncDef α) (f' : FuncDef Ty) : Prop where
  name : f'.name = f.name
  signature : f'.signature = f.signature
  params : f'.params.map Param.name = f.params.map Param.name
  locals : f'.locals.map VarDef.name = f.locals.map VarDef.name

/-- A function that is accepted is well typed and keeps its names. -/
theorem wellTyped_of_checkFuncDef {f : FuncDef α} {f' : FuncDef Ty}
    (h : checkFuncDef scope f = .ok f') : f'.WellTyped scope ∧ SameNames f f' := by
  obtain ⟨scope₁, params, hparams, scope₂, locals, hlocals, stmts, hstmts, -, rfl⟩ :=
    checkFuncDef_eq_ok.mp h
  obtain ⟨rfl, hnodup, hnames, htypes⟩ :=
    checkParams_eq_ok rfl hparams (show (Table.names []).Nodup from List.nodup_nil)
  obtain ⟨rfl, hnodup', hnames', hliterals⟩ := checkLocals_eq_ok rfl hlocals hnodup
  refine ⟨⟨hnodup', hliterals, stmtsTyped_of_checkStmts f.stmts hstmts⟩, ⟨rfl, ?_, hnames, hnames'⟩⟩
  show Signature.mk _ _ = _
  rw [htypes]
  rfl

/-- Functions are accepted one by one. -/
theorem checkFunctions_eq_ok_iff {fs : List (FuncDef α)} {fs' : List (FuncDef Ty)} :
    checkFunctions scope fs = .ok fs' ↔ fs.map (checkFuncDef scope) = fs'.map .ok := by
  induction fs generalizing fs' with
  | nil =>
    rw [checkFunctions, List.map_nil]
    constructor
    · intro h
      cases h
      rfl
    · intro h
      rw [List.map_eq_nil_iff.mp h.symm]
  | cons f rest ih =>
    rw [checkFunctions, List.map_cons]
    constructor
    · intro h
      obtain ⟨first, hfirst, h⟩ := bind_eq_ok.mp h
      obtain ⟨others, hothers, h⟩ := bind_eq_ok.mp h
      cases h
      rw [List.map_cons, hfirst, ih.mp hothers]
    · intro h
      cases fs' with
      | nil => cases h
      | cons first others =>
        obtain ⟨hfirst, hothers⟩ := List.cons.inj h
        exact bind_eq_ok.mpr ⟨first, hfirst, bind_eq_ok.mpr ⟨others, ih.mpr hothers, rfl⟩⟩

theorem checkVarDefs_eq_ok {vs : List (VarDef α)} {vs' : List (VarDef Ty)}
    (h : vs.map checkVarDef = vs'.map .ok) :
    (vs'.map fun v => (v.name, v.type)) = (vs.map fun v => (v.name, v.type)) ∧
      ∀ v ∈ vs', v.literal.type = v.type := by
  refine ⟨map_eq_map_of_map_eq_ok h ?_, forall_mem_of_map_eq_ok h ?_⟩
  · intro v v' hv
    obtain ⟨hname, htype, -⟩ := wellTyped_of_checkVarDef hv
    rw [hname, htype]
  · intro v _ v' hv
    exact (wellTyped_of_checkVarDef hv).2.2

theorem checkFuncDefs_eq_ok {fs : List (FuncDef α)} {fs' : List (FuncDef Ty)}
    (h : fs.map (checkFuncDef scope) = fs'.map .ok) :
    List.Forall₂ SameNames fs fs' ∧ ∀ f ∈ fs', f.WellTyped scope := by
  induction fs generalizing fs' with
  | nil =>
    rw [List.map_eq_nil_iff.mp h.symm]
    exact ⟨.nil, List.forall_mem_nil _⟩
  | cons f rest ih =>
    cases fs' with
    | nil => cases h
    | cons first others =>
      obtain ⟨hfirst, hothers⟩ := List.cons.inj h
      obtain ⟨htyped, hsame⟩ := wellTyped_of_checkFuncDef hfirst
      obtain ⟨hsames, htypeds⟩ := ih hothers
      exact ⟨.cons hsame hsames, List.forall_mem_cons.mpr ⟨htyped, htypeds⟩⟩

/-- Checking keeps the signatures. -/
theorem signatures_eq {fs : List (FuncDef α)} {fs' : List (FuncDef Ty)}
    (h : List.Forall₂ SameNames fs fs') :
    (fs'.map fun f => (f.name, f.signature)) = fs.map fun f => (f.name, f.signature) := by
  induction h with
  | nil => rfl
  | cons hsame _ ih => rw [List.map_cons, List.map_cons, ih, hsame.name, hsame.signature]

end Typing

/-- All names that a program defines or finds defined: its global variables, the built-in functions
and its own functions. -/
def Program.names (p : Program α) : List Text := p.scope.globals.names ++ p.scope.functions.names

/-- **What a program must be like to pass the check**, whatever the order of its definitions: no
name has two meanings, and each part is accepted in the scope of the whole program. -/
theorem check_eq_ok_iff {p : Program α} {q : Program Ty} :
    p.check = .ok q ↔
      p.names.Nodup ∧ p.globals.map checkVarDef = q.globals.map .ok ∧
      p.functions.map (checkFuncDef p.scope) = q.functions.map .ok ∧
      checkStmts p.scope p.stmts = .ok q.stmts := by
  have hempty : Scope.initial.globals.names.Nodup := List.nodup_nil
  have hbuiltins : builtins.names.Nodup := by decide
  have hglobalNames : p.scope.globals.names = p.globals.map VarDef.name := List.map_map
  have hfunctionNames : p.scope.functions.names = builtins.names ++
      p.functions.map FuncDef.name := by
    rw [Program.scope, Table.names_append, Table.names, Table.names, List.map_map]
    rfl
  rw [Program.names, hglobalNames, hfunctionNames]
  constructor
  · intro h
    obtain ⟨⟨scope₁, globals⟩, hglobals, h⟩ := bind_eq_ok.mp h
    obtain ⟨scope₂, hdeclared, h⟩ := bind_eq_ok.mp h
    obtain ⟨functions, hfunctions, h⟩ := bind_eq_ok.mp h
    obtain ⟨stmts, hstmts, h⟩ := bind_eq_ok.mp h
    cases h
    obtain ⟨hnodup, hfree, hvs, rfl⟩ := (checkGlobals_eq_ok_iff hempty).mp hglobals
    obtain ⟨hnodup', hfree', rfl⟩ :=
      (declareFunctions_eq_ok_iff hbuiltins fun name hname => hname).mp hdeclared
    rw [checkFunctions_eq_ok_iff] at hfunctions
    refine ⟨List.nodup_append.mpr ⟨hnodup, hnodup', ?_⟩, hvs, hfunctions, hstmts⟩
    intro name hname other hother he
    subst he
    obtain ⟨v, hv, rfl⟩ := List.mem_map.mp hname
    rcases List.mem_append.mp hother with hbuiltin | hown
    · exact hfree v hv hbuiltin
    · obtain ⟨f, hf, he⟩ := List.mem_map.mp hown
      exact hfree' f hf
        (List.mem_map.mpr ⟨(v.name, v.type), List.mem_map.mpr ⟨v, hv, rfl⟩, he.symm⟩)
  · rintro ⟨hnodup, hvs, hfunctions, hstmts⟩
    obtain ⟨hnodup, hnodup', hdisjoint⟩ := List.nodup_append.mp hnodup
    have hfree : ∀ v ∈ p.globals, v.name ∉ builtins.names := fun v hv hmem =>
      hdisjoint v.name (List.mem_map_of_mem hv) v.name (List.mem_append_left _ hmem) rfl
    have hfree' : ∀ f ∈ p.functions, f.name ∉ p.scope.globals.names := fun f hf hmem =>
      hdisjoint f.name (hglobalNames ▸ hmem) f.name
        (List.mem_append_right _ (List.mem_map_of_mem hf)) rfl
    have hglobals : checkGlobals .initial p.globals =
        .ok ({ Scope.initial with globals := p.scope.globals }, q.globals) :=
      (checkGlobals_eq_ok_iff hempty).mpr ⟨hnodup, hfree, hvs, rfl⟩
    have hdeclared : declareFunctions { Scope.initial with globals := p.scope.globals }
        p.functions =
        .ok p.scope :=
      (declareFunctions_eq_ok_iff hbuiltins fun name hname => hname).mpr ⟨hnodup', hfree', rfl⟩
    exact bind_eq_ok.mpr ⟨_, hglobals, bind_eq_ok.mpr ⟨_, hdeclared, bind_eq_ok.mpr
      ⟨_, checkFunctions_eq_ok_iff.mpr hfunctions, bind_eq_ok.mpr ⟨_, hstmts, rfl⟩⟩⟩⟩

/-- Checking gives a well-typed program with the same names. -/
theorem wellTyped_of_check {p : Program α} {q : Program Ty} (h : p.check = .ok q) :
    q.WellTyped ∧ q.globals.map VarDef.name = p.globals.map VarDef.name ∧
      List.Forall₂ Typing.SameNames p.functions q.functions := by
  obtain ⟨hnodup, hglobals, hfunctions, hstmts⟩ := check_eq_ok_iff.mp h
  obtain ⟨htypes, hliterals⟩ := checkVarDefs_eq_ok hglobals
  obtain ⟨hsames, htyped⟩ := checkFuncDefs_eq_ok hfunctions
  have hbody := stmtsTyped_of_checkStmts p.stmts hstmts
  have hscope : p.scope = q.scope := by
    rw [Program.scope, Program.scope, htypes, signatures_eq hsames]
  rw [Program.names, hscope] at hnodup
  rw [hscope] at htyped hbody
  obtain ⟨hdistinct, hdistinct', -⟩ := List.nodup_append.mp hnodup
  have hnames := congrArg (List.map Prod.fst) htypes
  rw [List.map_map, List.map_map] at hnames
  exact ⟨⟨hdistinct, hdistinct', hliterals, htyped, hbody⟩, hnames, hsames⟩

end WatCompiler
