import WatCompiler.Proofs.Source.Statements

/-!
# Reading written definitions

The tokens of a variable's definition and of a function in source form are read by the grammar as
one node each, and from that node the definition is read again, with new positions
(`varDef_written`, `funcDef_written`).
-/

namespace WatCompiler

open SyntaxTree

namespace Source

open Program.Reading (textOf infoOf posOf isDefinition typeName variableType? returnType?)

variable {source : Text} {t : Token} {ts rest : List Token} {bound : Nat} {n : Node}

/-! ## Types -/

/-- The node is that of a type behind its mark, a colon or an arrow. -/
structure TypeRead (source : Text) (mark : Operator) (type : Ty) (n : Node) : Prop where
  kind : n.kind = .typeDef
  name : typeName (.ofText source) mark n = .ok type.lexeme.text

theorem expression_operand {kind : Kind} (ht : IsOperand t kind) (hrest : Closes Level.or rest) :
    expression (t :: rest) = .ok (.leaf kind t, rest) := by
  obtain ⟨c, hc⟩ : ∃ c, depthBound (t :: rest) = c + 3 :=
    ⟨depthBound (t :: rest) - 3, by rw [depthBound]; omega⟩
  rw [expression, hc, expressionAt_operand ht hrest]
  exact operators_of_closes hrest _

theorem typeDef_written {mark : Operator} {type : Ty} {m : Token}
    (htype : type ∈ [Ty.int, Ty.bool, Ty.none]) (hm : m.kind = .op mark)
    (ht : type.lexeme.ReadAs source t) :
    ∃ n, TypeRead source mark type n ∧ ∀ {rest : List Token}, Closes Level.or rest →
      typeDef mark (m :: t :: rest) = .ok (n, rest) := by
  have hoperand : ∃ kind, IsOperand t kind ∧ (kind = .variableName ∨ kind = .none) ∧
      isLayout type.lexeme.kind = false := by
    simp only [List.mem_cons, List.not_mem_nil, or_false] at htype
    rcases htype with rfl | rfl | rfl
    · exact ⟨_, ⟨by rw [ht.kind]; rfl, by rw [ht.kind]; rfl⟩, .inl rfl, rfl⟩
    · exact ⟨_, ⟨by rw [ht.kind]; rfl, by rw [ht.kind]; rfl⟩, .inl rfl, rfl⟩
    · exact ⟨_, ⟨by rw [ht.kind]; rfl, by rw [ht.kind]; rfl⟩, .inr rfl, rfl⟩
  obtain ⟨kind, hoperand, hkind, hlayout⟩ := hoperand
  refine ⟨.branch .typeDef (.leaf (.op mark) m) [.leaf kind t], ⟨rfl, ?_⟩, fun {rest} hrest => ?_⟩
  · rw [typeName, Node.branch]
    dsimp only
    rw [if_neg (fun h => h rfl), Node.leaf_kind, if_pos hkind]
    exact congrArg Except.ok (ht.text hlayout)
  · rw [typeDef, expect, if_pos hm]
    dsimp only [bind, Except.bind]
    rw [expression_operand hoperand hrest]
    rfl

theorem variableType?_lexeme {type : Ty} (htype : type ∈ [Ty.int, Ty.bool]) :
    variableType? type.lexeme.text = some type := by
  simp only [List.mem_cons, List.not_mem_nil, or_false] at htype
  rcases htype with rfl | rfl <;> decide

theorem returnType?_lexeme {type : Ty} (htype : type ∈ [Ty.int, Ty.bool, Ty.none]) :
    returnType? type.lexeme.text = some type := by
  simp only [List.mem_cons, List.not_mem_nil, or_false] at htype
  rcases htype with rfl | rfl | rfl <;> decide

/-! ## Variables -/

/-- The node is that of the definition of a variable. -/
structure VarDefRead (source : Text) (v : VarDef Unit) (n : Node) : Prop where
  kind : n.kind = .assignStatement
  isDefinition : isDefinition (.ofText source) n = .ok true
  varDef : ∃ v', Program.Reading.varDef (.ofText source) n = .ok v' ∧ v'.unplaced = v.unplaced

theorem varDefRead {v : VarDef Unit} {type init : Node} (assign : Token)
    (ht : (Lexeme.name v.name).ReadAs source t) (htype : TypeRead source .colon v.type type)
    (htype' : v.type ∈ [Ty.int, Ty.bool])
    (hinit : Program.Reading.literal (.ofText source) init = .ok v.literal) :
    VarDefRead source v (.branch .assignStatement (.leaf .variableName t)
      [type, .leaf .assignOp assign, init]) := by
  have hname : textOf (.ofText source) (.leaf .variableName t) = v.name := ht.text rfl
  refine ⟨rfl, ?_, ⟨infoOf (.ofText source) (.leaf .variableName t), v.name, v.type,
    infoOf (.ofText source) init, v.literal⟩, ?_, rfl⟩
  · rw [isDefinition, Node.branch]
    dsimp only
    rw [htype.kind]
  · rw [Program.Reading.varDef, Node.branch]
    dsimp only
    rw [if_neg (fun h => h rfl), htype.name]
    dsimp only [bind, Except.bind]
    rw [if_neg (fun h => h rfl), hinit]
    dsimp only [Program.Reading.finished]
    rw [variableType?_lexeme htype', hname]
    rfl

/-- A definition: a name, a type and a value. -/
theorem expressionOrAssignment_define {colon assign : Token} {target type value : Node}
    {us vs after : List Token} (hcolon : colon.kind = .op .colon)
    (hassign : assign.kind = .op .assign) (h : expression ts = .ok (target, colon :: us))
    (h' : typeDef .colon (colon :: us) = .ok (type, assign :: vs))
    (h'' : ∀ {bound : Nat}, 6 * vs.length ≤ bound →
      expressionAt bound Level.or vs = .ok (value, after)) :
    expressionOrAssignment ts =
      .ok (.branch .assignStatement target [type, .leaf .assignOp assign, value], after) := by
  have hassigned : assigned (depthBound (assign :: vs)) (assign :: vs) =
      .ok ([.leaf .assignOp assign, value], after) := by
    obtain ⟨c, hc⟩ : ∃ c, depthBound (assign :: vs) = c + 1 :=
      ⟨depthBound (assign :: vs) - 1, by rw [depthBound]; omega⟩
    have hlength : 6 * vs.length ≤ c := by
      rw [depthBound, List.length_cons] at hc
      omega
    rw [hc, assigned, if_pos hassign, h'' hlength]
    rfl
  rw [expressionOrAssignment, h]
  dsimp only [bind, Except.bind]
  rw [show isAt (colon :: us) (.op .colon) = true from decide_eq_true hcolon, if_pos rfl, h']
  dsimp only
  rw [hassigned]
  rfl

/-- The grammar takes in the tokens of a variable's definition in source form. -/
theorem varDef_written {v : VarDef Unit} (hv : v.inSourceForm = true)
    (hts : Written source v.outline.lexemes ts) :
    ∃ n u us, VarDefRead source v n ∧ ts = u :: us ∧ u.kind = .ident ∧
      ∀ {bound : Nat} {rest : List Token}, 0 < bound →
        statement bound (ts ++ rest) = .ok (n, rest) := by
  simp only [VarDef.inSourceForm, Bool.and_eq_true, decide_eq_true_eq] at hv
  obtain ⟨⟨hname, htype⟩, hliteral⟩ := hv
  rw [VarDef.outline, Outline.lexemes] at hts
  obtain ⟨ws, zs, rfl, hws, hzs⟩ := Written.append hts
  obtain ⟨newline, rfl, hnewline⟩ := Written.singleton hzs
  obtain ⟨t, ws₁, ht, hws₁, rfl⟩ := List.forall₂_cons_left_iff.mp hws
  obtain ⟨colon, ws₂, hcolon, hws₂, rfl⟩ := List.forall₂_cons_left_iff.mp hws₁
  obtain ⟨type, ws₃, htoken, hws₃, rfl⟩ := List.forall₂_cons_left_iff.mp hws₂
  obtain ⟨assign, ws₄, hassign, hws₄, rfl⟩ := List.forall₂_cons_left_iff.mp hws₃
  obtain ⟨init, rfl, hinit, hread, -⟩ := literal_leaf hliteral hws₄
  have htype' : v.type ∈ [Ty.int, Ty.bool, Ty.none] := List.mem_append_left [Ty.none] htype
  obtain ⟨typeNode, htypeRead, htypeDef⟩ := typeDef_written htype' hcolon.kind htoken
  have hkind : t.kind = .ident := ht.kind
  have hoperand : IsOperand t .variableName := ⟨by rw [hkind]; rfl, by rw [hkind]; rfl⟩
  refine ⟨_, t, _, varDefRead assign ht htypeRead htype hread, rfl, hkind,
    fun {bound rest} hbound => ?_⟩
  obtain ⟨c, rfl⟩ : ∃ c, bound = c + 1 := ⟨bound - 1, by omega⟩
  have hexpression : startsExpression t.kind = true := by rw [hkind]; rfl
  have hclosed : Closes Level.or (newline :: rest) :=
    closes_of_kind hnewline.kind (by decide)
  refine statement_line (.inl hexpression) hnewline.kind ?_
  rw [simple_expression hexpression]
  refine expressionOrAssignment_define hcolon.kind hassign.kind
    (expression_operand hoperand (closes_of_kind hcolon.kind (by decide)))
    (htypeDef (closes_of_kind hassign.kind (by decide))) fun {bound} hbound => ?_
  obtain ⟨c, rfl⟩ : ∃ c, bound = c + 3 := ⟨bound - 3, by simp at hbound; omega⟩
  exact (expressionAt_operand hinit hclosed).trans (operators_of_closes hclosed _)

/-! ## Parameters -/

/-- The nodes of the parameters of a function, the closing parenthesis included. -/
inductive ParamsRead (source : Text) : List (Param Unit) → List Node → Prop
  | none (close : Token) : ParamsRead source [] [.leaf (.op .rightParen) close]
  | last {p : Param Unit} {t : Token} {type : Node} (ht : (Lexeme.name p.name).ReadAs source t)
      (htype : p.type ∈ [Ty.int, Ty.bool]) (h : TypeRead source .colon p.type type)
      (close : Token) :
      ParamsRead source [p] [.leaf .variableName t, type, .leaf (.op .rightParen) close]
  | more {p : Param Unit} {t : Token} {type : Node} {ps : List (Param Unit)} {ns : List Node}
      (ht : (Lexeme.name p.name).ReadAs source t) (htype : p.type ∈ [Ty.int, Ty.bool])
      (h : TypeRead source .colon p.type type) (comma : Token) (hne : ps ≠ [])
      (rest : ParamsRead source ps ns) :
      ParamsRead source (p :: ps)
        (.leaf .variableName t :: type :: .leaf (.op .comma) comma :: ns)

/-- One parameter, and what is read from the nodes after it. -/
theorem paramsUpToParen_param {p : Param Unit} {type separator : Node} {ns : List Node}
    (ht : (Lexeme.name p.name).ReadAs source t) (htype : p.type ∈ [Ty.int, Ty.bool])
    (h : TypeRead source .colon p.type type) (list : Node) :
    Program.Reading.paramsUpToParen (.ofText source) list
        (.leaf .variableName t :: type :: separator :: ns) =
      if separator.kind = .op .rightParen then do
        Program.Reading.finished (.ofText source) ns
        pure [⟨infoOf (.ofText source) (.leaf .variableName t), p.name, p.type⟩]
      else if separator.kind ≠ .op .comma then
        Program.Reading.failAt (.ofText source) separator
          (.unexpectedInParameters (textOf (.ofText source) separator))
      else if ns.head?.all fun next => next.kind = .op .rightParen then
        Program.Reading.failAt (.ofText source) separator .trailingCommaInParameters
      else
        Program.Reading.paramsUpToParen (.ofText source) list ns >>= fun others =>
          pure (⟨infoOf (.ofText source) (.leaf .variableName t), p.name, p.type⟩ :: others) := by
  have hname : textOf (.ofText source) (.leaf .variableName t) = p.name := ht.text rfl
  conv => lhs; rw [Program.Reading.paramsUpToParen.eq_def]
  dsimp only
  rw [Node.leaf_kind, if_neg nofun, if_neg (fun h => h rfl), if_neg (fun h' => h' h.kind), h.name]
  dsimp only [bind, Except.bind]
  rw [variableType?_lexeme htype, hname]

theorem ParamsRead.head {ps : List (Param Unit)} {ns : List Node} (h : ParamsRead source ps ns)
    (hne : ps ≠ []) : ∃ first others, ns = first :: others ∧ first.kind ≠ .op .rightParen := by
  cases h with
  | none => exact absurd rfl hne
  | last | more => exact ⟨_, _, rfl, nofun⟩

theorem ParamsRead.params {ps : List (Param Unit)} {ns : List Node}
    (h : ParamsRead source ps ns) (list : Node) :
    ∃ ps', Program.Reading.paramsUpToParen (.ofText source) list ns = .ok ps' ∧
      ps'.map Param.unplaced = ps.map Param.unplaced := by
  induction h with
  | none close =>
    refine ⟨[], ?_, rfl⟩
    rw [Program.Reading.paramsUpToParen.eq_def]
    exact if_pos rfl
  | @last p t _ ht htype h close =>
    refine ⟨[⟨infoOf (.ofText source) (.leaf .variableName t), p.name, p.type⟩], ?_, rfl⟩
    rw [paramsUpToParen_param ht htype h, Node.leaf_kind, if_pos rfl]
    rfl
  | @more p t _ _ _ ht htype h comma hne rest ih =>
    obtain ⟨ps', hps', hunplaced⟩ := ih
    obtain ⟨first, others, rfl, hfirst⟩ := rest.head hne
    refine ⟨⟨infoOf (.ofText source) (.leaf .variableName t), p.name, p.type⟩ :: ps', ?_,
      congrArg (List.cons p.unplaced) hunplaced⟩
    rw [paramsUpToParen_param ht htype h, Node.leaf_kind, if_neg (by decide),
      if_neg (fun h => h rfl), if_neg (by simpa using hfirst), hps']
    rfl

/-- The type of a parameter and what separates it from the others. -/
theorem parameters_parameter {type : Node} {colon s : Token} {us after : List Token}
    (ht : t.kind = .ident) (hcolon : colon.kind = .op .colon)
    (h : typeDef .colon (colon :: us) = .ok (type, s :: after)) (hs : s.kind ≠ .op .assign) :
    parameters (bound + 1) (t :: colon :: us) =
      if s.kind = .op .comma then do
        let (more, ts) ← parameters bound after
        pure (.leaf .variableName t :: type :: .leaf (.op .comma) s :: more, ts)
      else if s.kind = .op .rightParen then do
        let (more, ts) ← parameters bound (s :: after)
        pure (.leaf .variableName t :: type :: more, ts)
      else fail (s :: after) .parameterSeparatorExpected := by
  have htype : parameters.optionalType (colon :: us) = .ok ([type], s :: after) := by
    rw [parameters.optionalType, show isAt (colon :: us) (.op .colon) = true from
      decide_eq_true hcolon, if_pos rfl, h]
    rfl
  have hassigned : assigned (depthBound (s :: after)) (s :: after) = .ok ([], s :: after) := by
    rw [depthBound]
    refine assigned_of_ne fun u hu => ?_
    cases Option.mem_some.mp hu
    exact hs
  conv => lhs; rw [parameters.eq_def]
  dsimp only
  rw [if_neg (by rw [ht]; decide), if_pos ht, htype]
  dsimp only [bind, Except.bind]
  rw [hassigned]
  rfl

/-- The grammar takes in the tokens of parameters in source form. -/
theorem parameters_written (ps : List (Param Unit)) (hps : ps.all Param.inSourceForm = true)
    (hts : Written source (Param.lexemes ps) ts) :
    ∃ ns, ParamsRead source ps ns ∧ ∀ {bound : Nat} {rest : List Token}, ts.length ≤ bound →
      parameters bound (ts ++ rest) = .ok (ns, rest) := by
  induction ps generalizing ts with
  | nil =>
    obtain ⟨close, rfl, hclose⟩ := Written.singleton hts
    refine ⟨_, .none close, fun {bound rest} hbound => ?_⟩
    obtain ⟨c, rfl⟩ : ∃ c, bound = c + 1 := ⟨bound - 1, by simp at hbound; omega⟩
    rw [List.singleton_append, parameters]
    exact if_pos hclose.kind
  | cons p ps ih =>
    simp only [List.all_cons, Bool.and_eq_true, Param.inSourceForm, decide_eq_true_eq] at hps
    obtain ⟨⟨hname, htype⟩, hps⟩ := hps
    have htype' : p.type ∈ [Ty.int, Ty.bool, Ty.none] := List.mem_append_left [Ty.none] htype
    obtain ⟨t, ws₁, ht, hws₁, rfl⟩ := List.forall₂_cons_left_iff.mp hts
    obtain ⟨colon, ws₂, hcolon, hws₂, rfl⟩ := List.forall₂_cons_left_iff.mp hws₁
    obtain ⟨type, ws₃, htoken, hws₃, rfl⟩ := List.forall₂_cons_left_iff.mp hws₂
    obtain ⟨typeNode, htypeRead, htypeDef⟩ := typeDef_written htype' hcolon.kind htoken
    cases ps with
    | nil =>
      obtain ⟨close, rfl, hclose⟩ := Written.singleton hws₃
      have hkind : close.kind = .op .rightParen := hclose.kind
      refine ⟨_, .last ht htype htypeRead close, fun {bound rest} hbound => ?_⟩
      obtain ⟨c, rfl⟩ : ∃ c, bound = c + 2 := ⟨bound - 2, by simp at hbound; omega⟩
      have htypeDef : typeDef .colon (colon :: type :: close :: rest) = .ok (typeNode, _) :=
        htypeDef (closes_of_kind hkind (by decide))
      simp only [List.cons_append, List.nil_append]
      rw [parameters_parameter ht.kind hcolon.kind htypeDef (by rw [hkind]; decide),
        if_neg (by rw [hkind]; decide), if_pos hkind, parameters, if_pos hkind]
      rfl
    | cons q ps =>
      obtain ⟨comma, vs, hcomma, hvs, rfl⟩ := List.forall₂_cons_left_iff.mp hws₃
      have hkind : comma.kind = .op .comma := hcomma.kind
      obtain ⟨ns, hns, hmore⟩ := ih hps hvs
      refine ⟨_, .more ht htype htypeRead comma (List.cons_ne_nil _ _) hns,
        fun {bound rest} hbound => ?_⟩
      simp only [List.length_cons] at hbound
      obtain ⟨c, rfl⟩ : ∃ c, bound = c + 1 := ⟨bound - 1, by omega⟩
      have htypeDef : typeDef .colon (colon :: type :: comma :: (vs ++ rest)) = .ok (typeNode, _) :=
        htypeDef (closes_of_kind hkind (by decide))
      simp only [List.cons_append]
      rw [parameters_parameter ht.kind hcolon.kind htypeDef (by rw [hkind]; decide),
        if_pos hkind, hmore (by omega)]
      rfl

/-! ## Functions -/

/-- The node is that of a function. -/
structure FuncDefRead (source : Text) (f : FuncDef Unit) (n : Node) : Prop where
  kind : n.kind = .functionDefinition
  funcDef : ∃ f', Program.Reading.funcDef (.ofText source) n = .ok f' ∧ f'.unplaced = f.unplaced

theorem bodyItems_stmts {stmts : List (Stmt Unit)} {ns : List Node}
    (h : List.Forall₂ (StmtRead source) stmts ns) (defining : Bool) :
    ∃ stmts', Program.Reading.bodyItems (.ofText source) defining ns = .ok ([], stmts') ∧
      Stmt.allUnplaced stmts' = Stmt.allUnplaced stmts := by
  induction h generalizing defining with
  | nil => exact ⟨[], rfl, rfl⟩
  | @cons s n stmts ns hs _ ih =>
    obtain ⟨s', hs', hunplaced⟩ := hs.stmt
    obtain ⟨stmts', hstmts', hunplaced'⟩ := ih false
    refine ⟨s' :: stmts', ?_, congrArg₂ List.cons hunplaced hunplaced'⟩
    rw [Program.Reading.bodyItems]
    by_cases hkind : n.kind = .assignStatement
    · rw [if_pos hkind, hs.notDefinition hkind, hs', hstmts']
      rfl
    · rw [if_neg hkind, hs', hstmts']
      rfl

theorem bodyItems_locals {locals : List (VarDef Unit)} {stmts : List (Stmt Unit)}
    {ms ns : List Node} (h : List.Forall₂ (VarDefRead source) locals ms)
    (h' : List.Forall₂ (StmtRead source) stmts ns) :
    ∃ locals' stmts',
      Program.Reading.bodyItems (.ofText source) true (ms ++ ns) = .ok (locals', stmts') ∧
      locals'.map VarDef.unplaced = locals.map VarDef.unplaced ∧
      Stmt.allUnplaced stmts' = Stmt.allUnplaced stmts := by
  induction h with
  | nil =>
    obtain ⟨stmts', hstmts', hunplaced⟩ := bodyItems_stmts h' true
    exact ⟨[], stmts', hstmts', rfl, hunplaced⟩
  | @cons v n locals ms hv _ ih =>
    obtain ⟨v', hv', hunplaced⟩ := hv.varDef
    obtain ⟨locals', stmts', hitems, hlocals, hstmts⟩ := ih
    refine ⟨v' :: locals', stmts', ?_, congrArg₂ List.cons hunplaced hlocals, hstmts⟩
    rw [List.cons_append, Program.Reading.bodyItems, if_pos hv.kind, hv.isDefinition]
    dsimp only [bind, Except.bind]
    rw [if_pos rfl, if_pos rfl, hv', hitems]
    rfl

theorem funcDefRead {f : FuncDef Unit} {name : Token} {type : Node} {ps ms ns : List Node}
    (t paren colon : Token) (hname : (Lexeme.name f.name).ReadAs source name)
    (hparams : ParamsRead source f.params ps) (htype : TypeRead source .arrow f.returns type)
    (htype' : f.returns ∈ [Ty.int, Ty.bool, Ty.none])
    (hlocals : List.Forall₂ (VarDefRead source) f.locals ms)
    (hstmts : List.Forall₂ (StmtRead source) f.stmts ns) :
    FuncDefRead source f (.branch .functionDefinition (.leaf (.keyword .def_) t)
      [.leaf .variableName name, .branch .paramList (.leaf (.op .leftParen) paren) ps, type,
        .branch .body (.leaf (.op .colon) colon) (ms ++ ns)]) := by
  obtain ⟨params', hparams', hunplaced⟩ :=
    hparams.params (.branch .paramList (.leaf (.op .leftParen) paren) ps)
  obtain ⟨locals', stmts', hbody, hunplaced', hunplaced''⟩ := bodyItems_locals hlocals hstmts
  have htext : textOf (.ofText source) (.leaf .variableName name) = f.name := hname.text rfl
  have hlist : Program.Reading.params (.ofText source)
      (.branch .paramList (.leaf (.op .leftParen) paren) ps) = .ok params' := by
    rw [Program.Reading.params, Node.branch]
    dsimp only
    rw [if_neg (fun h => h rfl)]
    exact hparams'
  have hreturns (rest : List Node) : Program.Reading.returns (.ofText source) f.name
      (type :: rest) = .ok (f.returns, rest) := by
    rw [Program.Reading.returns, if_pos htype.kind, htype.name]
    dsimp only [bind, Except.bind]
    rw [returnType?_lexeme htype']
    rfl
  have hfuncBody : Program.Reading.funcBody (.ofText source)
      (.branch .body (.leaf (.op .colon) colon) (ms ++ ns)) = .ok (locals', stmts') := by
    rw [Program.Reading.funcBody, Node.branch]
    dsimp only
    rw [if_neg (fun h => h rfl)]
    exact hbody
  refine ⟨rfl, ⟨posOf (.ofText source) (.leaf (.keyword .def_) t), f.name, params', f.returns,
    infoOf (.ofText source) (.leaf (.op .colon) colon), locals', stmts'⟩, ?_, ?_⟩
  · rw [Program.Reading.funcDef, Node.branch]
    dsimp only
    rw [if_neg (fun h => h rfl), if_neg (fun h => h rfl), if_neg (fun h => h rfl), hlist, htext]
    dsimp only [bind, Except.bind]
    rw [hreturns]
    dsimp only
    rw [if_neg (fun h => h rfl), hfuncBody]
    rfl
  · simp only [FuncDef.unplaced, hunplaced, hunplaced', hunplaced'']
    rfl

/-- The head of a function, up to the colon of its body. -/
theorem functionHead_eq {name paren arrow : Token} {us : List Token} {ps : List Node} {type : Node}
    (hname : name.kind = .ident) (hparen : paren.kind = .op .leftParen)
    (hparams : parameters (ts.length + 1) ts = .ok (ps, arrow :: us))
    (harrow : arrow.kind = .op .arrow) (htype : typeDef .arrow (arrow :: us) = .ok (type, rest)) :
    functionHead t (name :: paren :: ts) =
      .ok ((.leaf (.keyword .def_) t, [.leaf .variableName name,
        .branch .paramList (.leaf (.op .leftParen) paren) ps, type]), rest) := by
  rw [functionHead, expect, if_pos hname]
  dsimp only [bind, Except.bind]
  rw [parameterList, expect, if_pos hparen]
  dsimp only [bind, Except.bind]
  rw [hparams]
  dsimp only [pure, Except.pure]
  rw [returnType, show isAt (arrow :: us) (.op .arrow) = true from decide_eq_true harrow,
    if_pos rfl, htype]
  rfl

/-- A function: its head, then its body. -/
theorem statement_def {first body_ : Node} {more : List Node} {us : List Token}
    (ht : t.kind = .keyword .def_) (h : functionHead t ts = .ok ((first, more), us))
    (h' : body bound us = .ok (body_, rest)) :
    statement (bound + 1) (t :: ts) =
      .ok (.branch .functionDefinition first (more ++ [body_]), rest) := by
  rw [statement]
  dsimp only
  rw [ht]
  dsimp only
  rw [h]
  dsimp only [bind, Except.bind]
  rw [h']
  rfl

/-- The grammar takes in the tokens of the body of a function in source form. -/
theorem funcBody_written {locals : List (VarDef Unit)} {stmts : List (Stmt Unit)}
    (hlocals : locals.all VarDef.inSourceForm = true)
    (hstmts : Stmt.allInSourceForm stmts = true)
    (hts : Written source (Outline.lexemesAll
      (locals.map VarDef.outline ++ Stmt.outlineAll stmts) ++ [Lexeme.layout .dedent]) ts) :
    ∃ ms ns, List.Forall₂ (VarDefRead source) locals ms ∧
      List.Forall₂ (StmtRead source) stmts ns ∧
      ∀ {bound : Nat} {rest : List Token}, 6 * ts.length ≤ bound →
        block bound (ts ++ rest) = .ok (ms ++ ns, rest) := by
  induction locals generalizing ts with
  | nil =>
    obtain ⟨ns, hns, hblock⟩ := block_written stmts hstmts hts
    exact ⟨[], ns, .nil, hns, hblock⟩
  | cons v locals ih =>
    simp only [List.all_cons, Bool.and_eq_true] at hlocals
    rw [List.map_cons, List.cons_append, Outline.lexemesAll, List.append_assoc] at hts
    obtain ⟨us, vs, rfl, hus, hvs⟩ := Written.append hts
    obtain ⟨n, u, us, hn, rfl, hu, hstatement⟩ := varDef_written hlocals.1 hus
    obtain ⟨ms, ns, hms, hns, hblock⟩ := ih hlocals.2 hvs
    refine ⟨n :: ms, ns, .cons hn hms, hns, fun {bound rest} hbound => ?_⟩
    simp only [List.length_cons, List.length_append] at hbound
    obtain ⟨c, rfl⟩ : ∃ c, bound = c + 1 := ⟨bound - 1, by omega⟩
    rw [List.append_assoc, List.cons_append]
    exact block_statement (by rw [hu]; decide) (by rw [hu]; decide) (hstatement (by omega))
      (hblock (by omega))

/-- The grammar takes in the tokens of a function in source form. -/
theorem funcDef_written {f : FuncDef Unit} (hf : f.inSourceForm = true)
    (hts : Written source f.outline.lexemes ts) :
    ∃ n u us, FuncDefRead source f n ∧ ts = u :: us ∧ u.kind = .keyword .def_ ∧
      ∀ {bound : Nat} {rest : List Token}, 6 * ts.length ≤ bound →
        statement bound (ts ++ rest) = .ok (n, rest) := by
  simp only [FuncDef.inSourceForm, Bool.and_eq_true, decide_eq_true_eq] at hf
  obtain ⟨⟨⟨⟨⟨hname, hparams⟩, htype⟩, hlocals⟩, hstmts⟩, -⟩ := hf
  rw [FuncDef.outline, Outline.lexemes] at hts
  simp only [List.cons_append, List.append_assoc, List.nil_append] at hts
  obtain ⟨t, ws₁, ht, hws₁, rfl⟩ := List.forall₂_cons_left_iff.mp hts
  obtain ⟨name, ws₂, hname, hws₂, rfl⟩ := List.forall₂_cons_left_iff.mp hws₁
  obtain ⟨paren, ws₃, hparen, hws₃, rfl⟩ := List.forall₂_cons_left_iff.mp hws₂
  obtain ⟨ps, ws₄, rfl, hps, hws₄⟩ := Written.append hws₃
  obtain ⟨arrow, ws₅, harrow, hws₅, rfl⟩ := List.forall₂_cons_left_iff.mp hws₄
  obtain ⟨type, ws₆, htoken, hws₆, rfl⟩ := List.forall₂_cons_left_iff.mp hws₅
  obtain ⟨colon, ws₇, hcolon, hws₇, rfl⟩ := List.forall₂_cons_left_iff.mp hws₆
  obtain ⟨newline, ws₈, hnewline, hws₈, rfl⟩ := List.forall₂_cons_left_iff.mp hws₇
  obtain ⟨indent, vs, hindent, hvs, rfl⟩ := List.forall₂_cons_left_iff.mp hws₈
  obtain ⟨params, hparamsRead, hparameters⟩ := parameters_written f.params hparams hps
  obtain ⟨typeNode, htypeRead, htypeDef⟩ := typeDef_written htype harrow.kind htoken
  obtain ⟨ms, ns, hms, hns, hblock⟩ := funcBody_written hlocals hstmts hvs
  refine ⟨_, t, _, funcDefRead t paren colon hname hparamsRead htypeRead htype hms hns, rfl,
    ht.kind, fun {bound rest} hbound => ?_⟩
  simp only [List.length_cons, List.length_append] at hbound
  obtain ⟨c, rfl⟩ : ∃ c, bound = c + 2 := ⟨bound - 2, by omega⟩
  simp only [List.cons_append, List.append_assoc]
  refine statement_def ht.kind (functionHead_eq hname.kind hparen.kind (hparameters ?_) harrow.kind
    (htypeDef (closes_of_kind hcolon.kind (by decide))))
    (body_block hcolon.kind hnewline.kind hindent.kind (hblock (by omega)))
  rw [List.length_append]
  omega

end Source

end WatCompiler
