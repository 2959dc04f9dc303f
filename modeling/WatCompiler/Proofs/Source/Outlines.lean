import WatCompiler.Proofs.Source.Lines

/-!
# Programs in source form have well-formed outlines

The words of a program in source form are words, every bracket they open is closed again, and no
line or block is empty. So the outline of such a program is well-formed
(`allWellFormed_outline`).
-/

namespace WatCompiler

namespace Source

variable {α : Type} {x : Lexeme} {xs ys : List Lexeme}

/-- Words that close the brackets they open. -/
structure IsPhrase (xs : List Lexeme) : Prop where
  isWord : ∀ x ∈ xs, x.IsWord
  balanced : ∀ depth, xs.foldl Lexeme.depthAfter depth = depth

theorem IsPhrase.nil : IsPhrase [] := ⟨nofun, fun _ => rfl⟩

/-- Phrases one behind the other make a phrase. -/
theorem IsPhrase.append (h : IsPhrase xs) (h' : IsPhrase ys) : IsPhrase (xs ++ ys) where
  isWord x hx := (List.mem_append.mp hx).elim (h.isWord x) (h'.isWord x)
  balanced depth := by rw [List.foldl_append, h.balanced, h'.balanced]

/-- A word that is no parenthesis is a phrase. -/
theorem IsPhrase.singleton (hx : x.IsWord) (hdepth : ∀ depth, x.depthAfter depth = depth) :
    IsPhrase [x] where
  isWord _ hy := List.mem_singleton.mp hy ▸ hx
  balanced := hdepth

theorem IsPhrase.cons (hx : x.IsWord) (hdepth : ∀ depth, x.depthAfter depth = depth)
    (h : IsPhrase xs) : IsPhrase (x :: xs) :=
  (IsPhrase.singleton hx hdepth).append h

/-- A phrase can stand in a line of its own. -/
theorem IsPhrase.isLine (h : IsPhrase xs) (hne : xs ≠ []) : IsLine xs :=
  ⟨hne, h.isWord, h.balanced 0⟩

/-- The inside of a pair of parentheses and the closing one. -/
structure IsInside (xs : List Lexeme) : Prop where
  isWord : ∀ x ∈ xs, x.IsWord
  balanced : ∀ depth, xs.foldl Lexeme.depthAfter (depth + 1) = depth

/-- The closing parenthesis ends what is inside. -/
theorem IsInside.close : IsInside [.op .rightParen] where
  isWord _ hx := List.mem_singleton.mp hx ▸ .op .rightParen
  balanced _ := rfl

/-- A phrase and then the rest of what is inside. -/
theorem IsInside.append (h : IsPhrase xs) (h' : IsInside ys) : IsInside (xs ++ ys) where
  isWord x hx := (List.mem_append.mp hx).elim (h.isWord x) (h'.isWord x)
  balanced depth := by rw [List.foldl_append, h.balanced, h'.balanced]

/-- With its opening parenthesis, what is inside is a phrase. -/
theorem IsInside.isPhrase (h : IsInside xs) : IsPhrase (.op .leftParen :: xs) where
  isWord x hx := by
    rcases List.mem_cons.mp hx with rfl | hx
    · exact .op .leftParen
    · exact h.isWord x hx
  balanced depth := h.balanced depth

/-! ## Expressions -/

theorem separator_isPhrase {β : Type} (rest : List β) : IsPhrase (separator rest) := by
  unfold separator
  split
  · exact .nil
  · exact .singleton (.op .comma) fun _ => rfl

theorem isPhrase_literal (value : Literal) : IsPhrase value.lexemes := by
  cases value with
  | none | true | false => exact .singleton (.keyword _) fun _ => rfl
  | number value | other _ value =>
    simp only [Literal.lexemes]
    split
    · exact .cons (.sign .minus) (fun _ => rfl) (.singleton (.numeral _) fun _ => rfl)
    · exact .singleton (.numeral _) fun _ => rfl

theorem isPhrase_unaryOp {op : UnaryOp} (hop : op ∈ UnaryOp.all) : IsPhrase [op.lexeme] := by
  cases op with
  | not => exact .singleton (.keyword .not) fun _ => rfl
  | negate => exact .singleton (.sign .minus) fun _ => rfl
  | plus => exact .singleton (.sign .plus) fun _ => rfl
  | other => exact absurd hop (by simp [UnaryOp.all])

theorem isPhrase_binaryOp {op : BinaryOp} (hop : op ∈ BinaryOp.all) : IsPhrase [op.lexeme] := by
  cases op with
  | is => exact .singleton (.keyword .is) fun _ => rfl
  | other => exact absurd hop (by simp [BinaryOp.all])
  | add | subtract | multiply | remainder | divide | equal | notEqual | lessEqual | greaterEqual
  | less | greater => exact .singleton (.op _) fun _ => rfl

theorem isPhrase_name {name : Text} (h : Token.isIdentifier name = true) :
    IsPhrase [.name name] :=
  .singleton (.name h) fun _ => rfl

mutual

/-- The lexemes of an expression are a phrase. -/
theorem isPhrase_expr (e : Expr α) (he : e.inSourceForm = true) : IsPhrase e.lexemes := by
  match e, he with
  | .literal _ value, _ => exact isPhrase_literal value
  | .ident _ name, he => exact isPhrase_name he
  | .unary _ op arg, he =>
    simp only [Expr.inSourceForm, Bool.and_eq_true, decide_eq_true_eq] at he
    exact (isPhrase_unaryOp he.1.1).append (isPhrase_expr arg he.2)
  | .binary _ op lhs rhs, he =>
    simp only [Expr.inSourceForm, Bool.and_eq_true, decide_eq_true_eq] at he
    exact (isPhrase_expr lhs he.1.2).append
      ((isPhrase_binaryOp he.1.1.1.1).append (isPhrase_expr rhs he.2))
  | .paren _ arg, he => exact (IsInside.append (isPhrase_expr arg he) .close).isPhrase
  | .call _ function args, he =>
    simp only [Expr.inSourceForm, Bool.and_eq_true] at he
    exact (isPhrase_name he.1).append (isInside_args args he.2).isPhrase

/-- Arguments and the closing parenthesis are the inside of a call. -/
theorem isInside_args (args : List (Expr α)) (hargs : Expr.allInSourceForm args = true) :
    IsInside (Expr.argLexemes args) := by
  match args, hargs with
  | [], _ => exact .close
  | arg :: args, hargs =>
    simp only [Expr.allInSourceForm, Bool.and_eq_true] at hargs
    exact .append ((isPhrase_expr arg hargs.1).append (separator_isPhrase args))
      (isInside_args args hargs.2)

end

/-! ## Statements -/

theorem allWellFormed_append {os os' : List Outline} (h : Outline.AllWellFormed os)
    (h' : Outline.AllWellFormed os') : Outline.AllWellFormed (os ++ os') := by
  induction os with
  | nil => exact h'
  | cons o os ih => exact ⟨h.1, ih h.2⟩

theorem allWellFormed_map {β : Type} {f : β → Outline} {ys : List β}
    (h : ∀ y ∈ ys, (f y).WellFormed) : Outline.AllWellFormed (ys.map f) := by
  induction ys with
  | nil => exact trivial
  | cons y ys ih =>
    exact ⟨h y List.mem_cons_self, ih fun z hz => h z (List.mem_cons_of_mem y hz)⟩

/-- Statements have at least one line. -/
theorem outlineAll_ne_nil {stmts : List (Stmt α)} (h : stmts.isEmpty = false) :
    Stmt.outlineAll stmts ≠ [] := by
  cases stmts with
  | nil => cases h
  | cons s stmts =>
    cases s with
    | ret _ value => cases value <;> exact List.cons_ne_nil _ _
    | cond _ test => cases test <;> exact List.cons_ne_nil _ _
    | assign | expr | while_ | pass => exact List.cons_ne_nil _ _

/-- A keyword, an expression and a colon. -/
theorem isLine_head (k : Keyword) {e : Expr α} (he : e.inSourceForm = true) :
    IsLine (Lexeme.keyword k :: e.lexemes ++ [Lexeme.op .colon]) := by
  refine IsPhrase.isLine ?_ (List.cons_ne_nil _ _)
  exact (IsPhrase.cons (.keyword k) (fun _ => rfl) (isPhrase_expr e he)).append
    (.singleton (.op .colon) fun _ => rfl)

mutual

/-- The lines of a statement are well formed. -/
theorem allWellFormed_stmt (arm : Bool) (s : Stmt α) (hs : s.inSourceForm arm = true) :
    Outline.AllWellFormed (s.outline arm) := by
  match s, hs with
  | .assign _ target value, hs =>
    simp only [Stmt.inSourceForm, Bool.and_eq_true] at hs
    refine ⟨IsPhrase.isLine ?_ (List.cons_ne_nil _ _), trivial⟩
    exact (isPhrase_name hs.1.2).append
      (.cons (.op .assign) (fun _ => rfl) (isPhrase_expr value hs.2))
  | .expr _ value, hs =>
    simp only [Stmt.inSourceForm, Bool.and_eq_true] at hs
    exact ⟨(isPhrase_expr value hs.2).isLine value.lexemes_ne_nil, trivial⟩
  | .ret _ none, _ =>
    exact ⟨(IsPhrase.singleton (.keyword .return_) fun _ => rfl).isLine (List.cons_ne_nil _ _),
      trivial⟩
  | .ret _ (some value), hs =>
    simp only [Stmt.inSourceForm, Bool.and_eq_true] at hs
    exact ⟨(IsPhrase.cons (.keyword .return_) (fun _ => rfl) (isPhrase_expr value hs.2)).isLine
      (List.cons_ne_nil _ _), trivial⟩
  | .while_ _ test body, hs =>
    simp only [Stmt.inSourceForm, Bool.and_eq_true, Bool.not_eq_true'] at hs
    exact ⟨⟨isLine_head .while_ hs.1.1.2, outlineAll_ne_nil hs.1.2,
      allWellFormed_stmts body hs.2⟩, trivial⟩
  | .cond _ none body orElse, hs =>
    simp only [Stmt.inSourceForm, Bool.and_eq_true, Bool.not_eq_true', Option.isNone_iff_eq_none]
      at hs
    obtain ⟨⟨⟨-, rfl⟩, hne⟩, hbody⟩ := hs
    refine ⟨⟨IsPhrase.isLine ?_ (List.cons_ne_nil _ _), outlineAll_ne_nil hne,
      allWellFormed_stmts body hbody⟩, trivial⟩
    exact .cons (.keyword .else_) (fun _ => rfl) (.singleton (.op .colon) fun _ => rfl)
  | .cond _ (some test) body orElse, hs =>
    simp only [Stmt.inSourceForm, Bool.and_eq_true, Bool.not_eq_true'] at hs
    obtain ⟨⟨⟨htest, hne⟩, hbody⟩, helse⟩ := hs
    exact ⟨⟨isLine_head _ htest, outlineAll_ne_nil hne, allWellFormed_stmts body hbody⟩,
      allWellFormed_else orElse helse⟩
  | .pass _, _ =>
    exact ⟨(IsPhrase.singleton (.keyword .pass) fun _ => rfl).isLine (List.cons_ne_nil _ _),
      trivial⟩

theorem allWellFormed_stmts (stmts : List (Stmt α)) (hstmts : Stmt.allInSourceForm stmts = true) :
    Outline.AllWellFormed (Stmt.outlineAll stmts) := by
  match stmts, hstmts with
  | [], _ => exact trivial
  | s :: stmts, hstmts =>
    simp only [Stmt.allInSourceForm, Bool.and_eq_true] at hstmts
    exact allWellFormed_append (allWellFormed_stmt false s hstmts.1)
      (allWellFormed_stmts stmts hstmts.2)

theorem allWellFormed_else (orElse : Option (Stmt α))
    (horElse : Stmt.elseInSourceForm orElse = true) :
    Outline.AllWellFormed (Stmt.outlineElse orElse) := by
  match orElse, horElse with
  | none, _ => exact trivial
  | some s, horElse => exact allWellFormed_stmt true s horElse

end

/-! ## Definitions and programs -/

theorem isPhrase_type {type : Ty} (h : type ∈ [Ty.int, Ty.bool, Ty.none]) :
    IsPhrase [type.lexeme] := by
  simp only [List.mem_cons, List.not_mem_nil, or_false] at h
  rcases h with rfl | rfl | rfl
  · exact isPhrase_name (by decide)
  · exact isPhrase_name (by decide)
  · exact .singleton (.keyword .none) fun _ => rfl

/-- A name and its type. -/
theorem isPhrase_typed {name : Text} {type : Ty} (hname : Token.isIdentifier name = true)
    (htype : type ∈ [Ty.int, Ty.bool]) : IsPhrase [.name name, .op .colon, type.lexeme] := by
  refine (isPhrase_name hname).append (.cons (.op .colon) (fun _ => rfl) ?_)
  exact isPhrase_type (List.mem_append_left [Ty.none] htype)

/-- The line of a definition is well formed. -/
theorem wellFormed_varDef {v : VarDef α} (hv : v.inSourceForm = true) : v.outline.WellFormed := by
  simp only [VarDef.inSourceForm, Bool.and_eq_true, decide_eq_true_eq] at hv
  refine IsPhrase.isLine ?_ (List.cons_ne_nil _ _)
  exact (isPhrase_typed hv.1.1 hv.1.2).append
    (.cons (.op .assign) (fun _ => rfl) (isPhrase_literal v.literal))

theorem allWellFormed_varDefs {vs : List (VarDef α)} (hvs : vs.all VarDef.inSourceForm = true) :
    Outline.AllWellFormed (vs.map VarDef.outline) :=
  allWellFormed_map fun v hv => wellFormed_varDef (List.all_eq_true.mp hvs v hv)

/-- Parameters and the closing parenthesis are the inside of a head. -/
theorem isInside_params {ps : List (Param α)} (hps : ps.all Param.inSourceForm = true) :
    IsInside (Param.lexemes ps) := by
  induction ps with
  | nil => exact .close
  | cons p ps ih =>
    simp only [List.all_cons, Bool.and_eq_true, Param.inSourceForm, decide_eq_true_eq] at hps
    exact .append ((isPhrase_typed hps.1.1 hps.1.2).append (separator_isPhrase ps)) (ih hps.2)

/-- The lines of a function are well formed. -/
theorem wellFormed_funcDef {f : FuncDef α} (hf : f.inSourceForm = true) :
    f.outline.WellFormed := by
  simp only [FuncDef.inSourceForm, Bool.and_eq_true, decide_eq_true_eq, Bool.not_eq_true'] at hf
  obtain ⟨⟨⟨⟨⟨hname, hparams⟩, htype⟩, hlocals⟩, hstmts⟩, hne⟩ := hf
  refine ⟨IsPhrase.isLine ?_ (List.cons_ne_nil _ _), ?_,
    allWellFormed_append (allWellFormed_varDefs hlocals) (allWellFormed_stmts f.stmts hstmts)⟩
  · refine .cons (.keyword .def_) (fun _ => rfl) ((isPhrase_name hname).append ?_)
    refine (isInside_params hparams).isPhrase.append (.cons (.op .arrow) (fun _ => rfl) ?_)
    exact (isPhrase_type htype).append (.singleton (.op .colon) fun _ => rfl)
  · cases hlocals' : f.locals with
    | nil =>
      rw [hlocals'] at hne
      exact outlineAll_ne_nil hne
    | cons => exact List.cons_ne_nil _ _

/-- A program in source form has a well-formed outline. -/
theorem allWellFormed_outline {p : Program α} (hp : p.inSourceForm = true) :
    Outline.AllWellFormed p.outline := by
  simp only [Program.inSourceForm, Bool.and_eq_true] at hp
  obtain ⟨⟨hglobals, hfunctions⟩, hstmts⟩ := hp
  refine allWellFormed_append (allWellFormed_append (allWellFormed_varDefs hglobals) ?_)
    (allWellFormed_stmts p.stmts hstmts)
  exact allWellFormed_map fun f hf => wellFormed_funcDef (List.all_eq_true.mp hfunctions f hf)

end Source

end WatCompiler
