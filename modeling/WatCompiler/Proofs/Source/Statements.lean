import WatCompiler.Proofs.Source.Expressions
import WatCompiler.Proofs.Source.StmtNodes
import WatCompiler.SyntaxTree.Statement

/-!
# Reading written statements

The tokens of a statement in source form are read by the grammar as one node, and that node is read
as the statement again, with new positions (`statement_written`). A conditional takes the arms after
it, so the token after a statement must not open one (`NoArm`).
-/

namespace WatCompiler

open SyntaxTree

namespace Source

variable {source : Text} {t : Token} {ts rest : List Token} {bound : Nat} {n : Node}
  {e : Expr Unit}

/-! ## Steps of the grammar -/

/-- A statement of one line, up to the token that ends the line. -/
theorem statement_line {u newline : Token} {us : List Token}
    (hu : startsExpression u.kind = true ∨ u.kind = .keyword .return_ ∨ u.kind = .keyword .pass)
    (hnewline : newline.kind = .newline)
    (h : simple (u :: us) = .ok (n, newline :: rest)) :
    statement (bound + 1) (u :: us) = .ok (n, rest) := by
  have hsimple : statement (bound + 1) (u :: us) = simpleStatement (u :: us) := by
    rw [statement]
    dsimp only
    split
    all_goals first | rfl | (rename_i hkind; exact absurd hu (by rw [hkind]; decide))
  rw [hsimple, simpleStatement, h]
  show (endOfLine (newline :: rest) >>= _) = _
  rw [endOfLine, if_pos hnewline]
  rfl

/-- A line that starts like an expression is one, or it defines or assigns. -/
theorem simple_expression (ht : startsExpression t.kind = true) :
    simple (t :: ts) = expressionOrAssignment (t :: ts) := by
  rw [simple]
  dsimp only
  unfold startsExpression at ht
  split at ht
  case h_10 => cases ht
  all_goals next hkind => rw [hkind]

theorem not_isAt {kind kind' : Token.Kind} (ht : t.kind = kind) (hne : kind ≠ kind') :
    isAt (t :: ts) kind' = false :=
  decide_eq_false (by rw [ht]; exact hne)

/-- An expression alone on its line. -/
theorem expressionOrAssignment_expression {newline : Token} (hnewline : newline.kind = .newline)
    (h : expression ts = .ok (n, newline :: rest)) :
    expressionOrAssignment ts = .ok (.branch .expressionStatement n [], newline :: rest) := by
  rw [expressionOrAssignment, h]
  dsimp only [bind, Except.bind]
  rw [not_isAt hnewline (by decide), not_isAt hnewline (by decide)]
  rfl

/-- An assignment. -/
theorem expressionOrAssignment_assign {assign newline : Token} {left right : Node}
    {after : List Token} (hassign : assign.kind = .op .assign) (hnewline : newline.kind = .newline)
    (h : expression ts = .ok (left, assign :: after))
    (h' : expression after = .ok (right, newline :: rest)) :
    expressionOrAssignment ts =
      .ok (.branch .assignStatement left [.leaf .assignOp assign, right], newline :: rest) := by
  have hend (bound : Nat) : assignments (bound + 1) (newline :: rest) =
      .ok ([], newline :: rest) := by
    rw [assignments, if_neg (by rw [hnewline]; decide)]
  have hassignments : assignments ((assign :: after).length + 1) (assign :: after) =
      .ok ([.leaf .assignOp assign, right], newline :: rest) := by
    rw [assignments, if_pos hassign, h']
    dsimp only [bind, Except.bind]
    rw [List.length_cons, hend]
    rfl
  rw [expressionOrAssignment, h]
  dsimp only [bind, Except.bind]
  rw [not_isAt hassign (by decide), show isAt (assign :: after) (.op .assign) = true from
    decide_eq_true hassign, hassignments]
  rfl

/-- The next token does not open another arm of a conditional. -/
def NoArm (rest : List Token) : Prop :=
  ∀ t ∈ rest.head?, t.kind ≠ .keyword .elif ∧ t.kind ≠ .keyword .else_

/-- Without `else` there is no last arm. -/
theorem otherwise_of_noArm (h : NoArm rest) : otherwise (bound + 1) rest = .ok ([], rest) := by
  cases rest with
  | nil => rw [otherwise]
  | cons t rest => rw [otherwise, if_neg (h t rfl).2]

theorem alternatives_of_noArm (h : NoArm rest) :
    alternatives (bound + 2) rest = .ok ([], rest) := by
  cases rest with
  | nil => rw [alternatives]
  | cons t rest => rw [alternatives, if_neg (h t rfl).1, otherwise_of_noArm h]

/-- `else` and its body are the last arm. -/
theorem alternatives_else {body_ : Node} (ht : t.kind = .keyword .else_)
    (h : body bound ts = .ok (body_, rest)) :
    alternatives (bound + 2) (t :: ts) = .ok ([.leaf (.keyword .else_) t, body_], rest) := by
  rw [alternatives, if_neg (by rw [ht]; decide), otherwise, if_pos ht, h]
  rfl

/-- `elif`, its test and its body, and then more arms. -/
theorem alternatives_elif {test body_ : Node} {us vs : List Token} {more : List Node}
    (ht : t.kind = .keyword .elif) (h : expression ts = .ok (test, us))
    (h' : body bound us = .ok (body_, vs)) (h'' : alternatives bound vs = .ok (more, rest)) :
    alternatives (bound + 1) (t :: ts) =
      .ok (.leaf (.keyword .elif) t :: test :: body_ :: more, rest) := by
  rw [alternatives, if_pos ht, h]
  dsimp only [bind, Except.bind]
  rw [h']
  dsimp only
  rw [h'']
  rfl

/-- A conditional with its arms. -/
theorem statement_if {test body_ : Node} {us vs : List Token} {more : List Node}
    (ht : t.kind = .keyword .if_) (h : expression ts = .ok (test, us))
    (h' : body bound us = .ok (body_, vs)) (h'' : alternatives bound vs = .ok (more, rest)) :
    statement (bound + 1) (t :: ts) =
      .ok (.branch .ifStatement (.leaf (.keyword .if_) t) (test :: body_ :: more), rest) := by
  rw [statement]
  dsimp only
  rw [ht]
  dsimp only
  rw [h]
  dsimp only [bind, Except.bind]
  rw [h']
  dsimp only
  rw [h'']
  rfl

/-- A loop, behind which no arm comes. -/
theorem statement_while {test body_ : Node} {us : List Token}
    (ht : t.kind = .keyword .while_) (h : expression ts = .ok (test, us))
    (h' : body (bound + 1) us = .ok (body_, rest)) (hrest : NoArm rest) :
    statement (bound + 2) (t :: ts) =
      .ok (.branch .whileStatement (.leaf (.keyword .while_) t) [test, body_], rest) := by
  rw [statement]
  dsimp only
  rw [ht]
  dsimp only
  rw [h]
  dsimp only [bind, Except.bind]
  rw [h']
  dsimp only
  rw [otherwise_of_noArm hrest]
  rfl

/-- A body is a colon, the end of the line and an indented block. -/
theorem body_block {colon newline indent : Token} {ns : List Node}
    (hcolon : colon.kind = .op .colon) (hnewline : newline.kind = .newline)
    (hindent : indent.kind = .indent) (h : block bound ts = .ok (ns, rest)) :
    body (bound + 1) (colon :: newline :: indent :: ts) =
      .ok (.branch .body (.leaf (.op .colon) colon) ns, rest) := by
  rw [body, expect, if_pos hcolon]
  dsimp only [bind, Except.bind]
  rw [show isAt (newline :: indent :: ts) .newline = true from decide_eq_true hnewline, if_pos rfl,
    if_pos hindent, h]
  rfl

/-- A block ends where the margin does. -/
theorem block_end (ht : t.kind = .dedent) : block (bound + 1) (t :: rest) = .ok ([], rest) := by
  rw [block]
  exact if_pos ht

/-- A statement and then the rest of the block. -/
theorem block_statement {us : List Token} {ns : List Node} (ht : t.kind ≠ .dedent)
    (ht' : t.kind ≠ .endOfInput) (h : statement bound (t :: ts) = .ok (n, us))
    (h' : block bound us = .ok (ns, rest)) : block (bound + 1) (t :: ts) = .ok (n :: ns, rest) := by
  rw [block]
  dsimp only
  rw [if_neg ht, if_neg ht', h]
  dsimp only [bind, Except.bind]
  rw [h']
  rfl

/-! ## Lines -/

/-- The grammar takes in the tokens of a statement. -/
def ReadsStatement (source : Text) (s : Stmt Unit) (ts : List Token) : Prop :=
  ∃ n, StmtRead source s n ∧ ∀ {bound : Nat} {rest : List Token}, 6 * ts.length ≤ bound →
    NoArm rest → statement bound (ts ++ rest) = .ok (n, rest)

/-- The grammar takes in the tokens of a statement of one line. -/
def ReadsLine (source : Text) (s : Stmt Unit) (ts : List Token) : Prop :=
  ∃ n u us, StmtRead source s n ∧ ts = u :: us ∧
    (startsExpression u.kind = true ∨ u.kind = .keyword .return_ ∨ u.kind = .keyword .pass) ∧
    ∀ {newline : Token} {rest : List Token}, newline.kind = .newline →
      simple (ts ++ newline :: rest) = .ok (n, newline :: rest)

/-- What is read from a line is read as a statement. -/
theorem ReadsLine.statement {s : Stmt Unit} {words : List Lexeme}
    (h : ∀ us, Written source words us → ReadsLine source s us)
    (hts : Written source (Outline.lexemesAll [.line words]) ts) : ReadsStatement source s ts := by
  rw [Outline.lexemesAll, Outline.lexemes, Outline.lexemesAll, List.append_nil] at hts
  obtain ⟨ws, vs, rfl, hws, hvs⟩ := Written.append hts
  obtain ⟨newline, rfl, hnewline⟩ := Written.singleton hvs
  obtain ⟨n, u, us, hn, rfl, hu, hsimple⟩ := h ws hws
  refine ⟨n, hn, fun {bound rest} hbound _ => ?_⟩
  obtain ⟨c, rfl⟩ : ∃ c, bound = c + 1 := ⟨bound - 1, by simp at hbound; omega⟩
  rw [List.append_assoc]
  exact statement_line hu hnewline.kind (hsimple hnewline.kind)

/-- A line with an expression. -/
theorem readsLine_expr (info : Info Unit) (he : e.inSourceForm = true)
    (hts : Written source e.lexemes ts) : ReadsLine source (.expr info e) ts := by
  obtain ⟨n, hn, hexpression⟩ := expression_written he hts
  obtain ⟨u, us, rfl, hu⟩ := exists_tokens_eq_cons he hts
  refine ⟨_, u, us, stmtRead_expr info hn, rfl, .inl hu, fun {newline rest} hnewline => ?_⟩
  rw [List.cons_append, simple_expression hu]
  exact expressionOrAssignment_expression hnewline
    (hexpression (closes_of_kind hnewline (by decide)))

/-- A line with an assignment. -/
theorem readsLine_assign {target : Text} (info : Info Unit)
    (htarget : Token.isIdentifier target = true) (he : e.inSourceForm = true)
    (hts : Written source (.name target :: .op .assign :: e.lexemes) ts) :
    ReadsLine source (.assign info target e) ts := by
  obtain ⟨t, us, ht, hus, rfl⟩ := List.forall₂_cons_left_iff.mp hts
  obtain ⟨assign, vs, hassign, hvs, rfl⟩ := List.forall₂_cons_left_iff.mp hus
  have htarget' : (Expr.ident info target).inSourceForm = true := htarget
  obtain ⟨left, hleft, hexpression⟩ := expression_written htarget' (.cons ht .nil)
  obtain ⟨right, hright, hexpression'⟩ := expression_written he hvs
  have hu : startsExpression t.kind = true := by rw [ht.kind]; rfl
  refine ⟨_, t, _, stmtRead_assign info assign hleft hright, rfl, .inl hu,
    fun {newline rest} hnewline => ?_⟩
  rw [List.cons_append, simple_expression hu]
  exact expressionOrAssignment_assign hassign.kind hnewline
    (hexpression (closes_of_kind hassign.kind (by decide)))
    (hexpression' (closes_of_kind hnewline (by decide)))

theorem readsLine_return (info : Info Unit) (hts : Written source [.keyword .return_] ts) :
    ReadsLine source (.ret info none) ts := by
  obtain ⟨t, rfl, ht⟩ := Written.singleton hts
  have hkind : t.kind = .keyword .return_ := ht.kind
  refine ⟨_, t, [], stmtRead_return info t, rfl, .inr (.inl hkind),
    fun {newline rest} hnewline => ?_⟩
  rw [List.singleton_append, simple]
  dsimp only
  rw [hkind]
  dsimp only
  rw [show isAt (newline :: rest) .newline = true from decide_eq_true hnewline]
  rfl

/-- A line with a return and its value. -/
theorem readsLine_returnValue (info : Info Unit) (he : e.inSourceForm = true)
    (hts : Written source (.keyword .return_ :: e.lexemes) ts) :
    ReadsLine source (.ret info (some e)) ts := by
  obtain ⟨t, ws, ht, hws, rfl⟩ := List.forall₂_cons_left_iff.mp hts
  have hkind : t.kind = .keyword .return_ := ht.kind
  obtain ⟨n, hn, hexpression⟩ := expression_written he hws
  obtain ⟨u, us, rfl, hu⟩ := exists_tokens_eq_cons he hws
  have hu' : u.kind ≠ .newline := by
    intro hkind
    rw [hkind] at hu
    cases hu
  refine ⟨_, t, _, stmtRead_returnValue info t hn, rfl, .inr (.inl hkind),
    fun {newline rest} hnewline => ?_⟩
  rw [List.cons_append, simple]
  dsimp only
  rw [hkind]
  dsimp only
  rw [List.cons_append, not_isAt rfl hu', ← List.cons_append,
    hexpression (closes_of_kind hnewline (by decide))]
  rfl

theorem readsLine_pass (info : Info Unit) (hts : Written source [.keyword .pass] ts) :
    ReadsLine source (.pass info) ts := by
  obtain ⟨t, rfl, ht⟩ := Written.singleton hts
  have hkind : t.kind = .keyword .pass := ht.kind
  refine ⟨_, t, [], stmtRead_pass info t, rfl, .inr (.inr hkind), fun {newline rest} _ => ?_⟩
  rw [List.singleton_append, simple]
  dsimp only
  rw [hkind]

/-! ## Blocks -/

/-- The sorts of tokens that a statement can start with. -/
def startsStatement (kind : Token.Kind) : Bool :=
  startsExpression kind || kind = .keyword .return_ || kind = .keyword .pass ||
    kind = .keyword .while_ || kind = .keyword .if_

/-- The lines of a statement start with a word that starts statements. -/
theorem exists_outline_eq_cons {s : Stmt Unit} (hs : s.inSourceForm false = true) :
    ∃ x more, Outline.lexemesAll (s.outline false) = x :: more ∧
      startsStatement x.kind = true := by
  cases s with
  | assign | while_ | pass => exact ⟨_, _, rfl, rfl⟩
  | expr _ e =>
    obtain ⟨x, more, hlexemes, hx⟩ := exists_lexemes_eq_cons e hs
    refine ⟨x, more ++ [Lexeme.layout .newline] ++ [], ?_, by rw [startsStatement, hx]; rfl⟩
    rw [Stmt.outline, Outline.lexemesAll, Outline.lexemes, hlexemes]
    rfl
  | ret _ value =>
    cases value with
    | none | some => exact ⟨_, _, rfl, rfl⟩
  | cond _ test =>
    cases test with
    | none => cases hs
    | some => exact ⟨_, _, rfl, rfl⟩

/-- So do its tokens. -/
theorem statement_starts {s : Stmt Unit} (hs : s.inSourceForm false = true)
    (hts : Written source (Outline.lexemesAll (s.outline false)) ts) :
    ∃ t us, ts = t :: us ∧ startsStatement t.kind = true := by
  obtain ⟨x, more, hlexemes, hx⟩ := exists_outline_eq_cons hs
  rw [hlexemes] at hts
  obtain ⟨t, us, ht, -, rfl⟩ := List.forall₂_cons_left_iff.mp hts
  exact ⟨t, us, rfl, by rw [ht.kind, hx]⟩

theorem kind_ne_of_startsStatement {kind kind' : Token.Kind} (h : startsStatement kind = true)
    (h' : startsStatement kind' = false) : kind ≠ kind' := by
  rintro rfl
  rw [h] at h'
  cases h'

theorem lexemesAll_append (os os' : List Outline) :
    Outline.lexemesAll (os ++ os') = Outline.lexemesAll os ++ Outline.lexemesAll os' := by
  induction os with
  | nil => rfl
  | cons o os ih =>
    rw [List.cons_append, Outline.lexemesAll, ih, Outline.lexemesAll, List.append_assoc]

/-- Neither a statement nor the end of a block or of the source opens another arm. -/
theorem noArm_block {kind : Token.Kind} (hkind : isLayout kind = true) {stmts : List (Stmt Unit)}
    (hstmts : Stmt.allInSourceForm stmts = true)
    (hts : Written source (Outline.lexemesAll (Stmt.outlineAll stmts) ++ [Lexeme.layout kind]) ts) :
    NoArm (ts ++ rest) := by
  cases stmts with
  | nil =>
    obtain ⟨t, rfl, ht⟩ := Written.singleton hts
    have hlayout : isLayout t.kind = true := by rw [ht.kind]; exact hkind
    intro u hu
    cases Option.mem_some.mp hu
    constructor <;> intro he <;> rw [he] at hlayout <;> cases hlayout
  | cons s stmts =>
    simp only [Stmt.allInSourceForm, Bool.and_eq_true] at hstmts
    rw [Stmt.outlineAll, lexemesAll_append, List.append_assoc] at hts
    obtain ⟨us, vs, rfl, hus, -⟩ := Written.append hts
    obtain ⟨t, us, rfl, ht⟩ := statement_starts hstmts.1 hus
    intro u hu
    cases Option.mem_some.mp hu
    exact ⟨kind_ne_of_startsStatement ht rfl, kind_ne_of_startsStatement ht rfl⟩

/-- The tokens of a block behind a head that is a keyword and a test. -/
theorem written_head {k : Keyword} {body : List Outline}
    (hts : Written source
      (Outline.block (Lexeme.keyword k :: e.lexemes ++ [Lexeme.op .colon]) body).lexemes ts) :
    ∃ t us colon newline indent vs, ts = t :: (us ++ colon :: newline :: indent :: vs) ∧
      t.kind = .keyword k ∧ Written source e.lexemes us ∧ colon.kind = .op .colon ∧
      newline.kind = .newline ∧ indent.kind = .indent ∧
      Written source (Outline.lexemesAll body ++ [Lexeme.layout .dedent]) vs := by
  rw [Outline.lexemes] at hts
  simp only [List.append_assoc, List.cons_append, List.nil_append] at hts
  obtain ⟨t, ws, ht, hws, rfl⟩ := List.forall₂_cons_left_iff.mp hts
  obtain ⟨us, xs, rfl, hus, hxs⟩ := Written.append hws
  obtain ⟨colon, ys, hcolon, hys, rfl⟩ := List.forall₂_cons_left_iff.mp hxs
  obtain ⟨newline, zs, hnewline, hzs, rfl⟩ := List.forall₂_cons_left_iff.mp hys
  obtain ⟨indent, vs, hindent, hvs, rfl⟩ := List.forall₂_cons_left_iff.mp hzs
  exact ⟨t, us, colon, newline, indent, vs, rfl, ht.kind, hus, hcolon.kind, hnewline.kind,
    hindent.kind, hvs⟩

/-- The grammar takes in the tokens of a block, the closing one included. -/
def ReadsBlock (source : Text) (stmts : List (Stmt Unit)) (ts : List Token) : Prop :=
  ∃ ns, List.Forall₂ (StmtRead source) stmts ns ∧ ∀ {bound : Nat} {rest : List Token},
    6 * ts.length ≤ bound → block bound (ts ++ rest) = .ok (ns, rest)

/-- The grammar takes in the tokens of the other arms of a conditional. -/
def ReadsElse (source : Text) (orElse : Option (Stmt Unit)) (ts : List Token) : Prop :=
  ∃ ns, ElseRead source orElse ns ∧ ∀ {bound : Nat} {rest : List Token},
    6 * ts.length + 2 ≤ bound → NoArm rest → alternatives bound (ts ++ rest) = .ok (ns, rest)

/-- An arm with a test: its keyword, then the parts that the grammar takes in one by one. -/
theorem arm_written {k : Keyword} (hk : k = .if_ ∨ k = .elif) (info : Info Unit)
    {body : List (Stmt Unit)} {orElse : Option (Stmt Unit)} (he : e.inSourceForm = true)
    (hne : body.isEmpty = false)
    (hts : Written source (Outline.lexemesAll
      (.block (Lexeme.keyword k :: e.lexemes ++ [Lexeme.op .colon]) (Stmt.outlineAll body) ::
        Stmt.outlineElse orElse)) ts)
    (hbody : ∀ {vs}, Written source
      (Outline.lexemesAll (Stmt.outlineAll body) ++ [Lexeme.layout .dedent]) vs →
      ReadsBlock source body vs)
    (helse : ∀ {ws}, Written source (Outline.lexemesAll (Stmt.outlineElse orElse)) ws →
      ReadsElse source orElse ws) :
    ∃ t us ns, ts = t :: us ∧ t.kind = .keyword k ∧
      ArmsRead source (.cond info (some e) body orElse) (.leaf (.keyword k) t :: ns) ∧
      ∀ (bound : Nat) (rest : List Token), 6 * ts.length ≤ bound + 1 → NoArm rest →
        ∃ test block_ more vs ws, ns = test :: block_ :: more ∧
          expression (us ++ rest) = .ok (test, vs) ∧ SyntaxTree.body bound vs = .ok (block_, ws) ∧
          alternatives bound ws = .ok (more, rest) := by
  rw [Outline.lexemesAll] at hts
  obtain ⟨xs, ys, rfl, hxs, hys⟩ := Written.append hts
  obtain ⟨t, us, colon, newline, indent, vs, rfl, ht, hus, hcolon, hnewline, hindent, hvs⟩ :=
    written_head hxs
  obtain ⟨n, hn, hexpression⟩ := expression_written he hus
  obtain ⟨ns, hns, hblock⟩ := hbody hvs
  obtain ⟨more, hmore, halternatives⟩ := helse hys
  refine ⟨t, _, _, rfl, ht,
    armsRead_test hk info t hn (blockRead_of_forall₂ colon hne hns) hmore,
    fun bound rest hbound hrest => ?_⟩
  simp only [List.length_cons, List.length_append] at hbound
  obtain ⟨c, rfl⟩ : ∃ c, bound = c + 1 := ⟨bound - 1, by omega⟩
  refine ⟨n, _, more, colon :: newline :: indent :: (vs ++ (ys ++ rest)), ys ++ rest, rfl, ?_,
    body_block hcolon hnewline hindent (hblock (by omega)), halternatives (by omega) hrest⟩
  show expression (us ++ colon :: newline :: indent :: vs ++ ys ++ rest) = _
  rw [List.append_assoc, List.append_assoc]
  exact hexpression (closes_of_kind hcolon (by decide))

mutual

/-- The grammar takes in the tokens of a statement in source form. -/
theorem statement_written (s : Stmt Unit) (hs : s.inSourceForm false = true) {ts : List Token}
    (hts : Written source (Outline.lexemesAll (s.outline false)) ts) :
    ReadsStatement source s ts := by
  match s, hs with
  | .assign info target value, hs =>
    simp only [Stmt.inSourceForm, Bool.and_eq_true] at hs
    exact ReadsLine.statement (fun us => readsLine_assign info hs.1.2 hs.2) hts
  | .expr info value, hs => exact ReadsLine.statement (fun us => readsLine_expr info hs) hts
  | .ret info none, _ => exact ReadsLine.statement (fun us => readsLine_return info) hts
  | .ret info (some value), hs =>
    exact ReadsLine.statement (fun us => readsLine_returnValue info hs) hts
  | .pass info, _ => exact ReadsLine.statement (fun us => readsLine_pass info) hts
  | .while_ info test body, hs =>
    simp only [Stmt.inSourceForm, Bool.and_eq_true, Bool.not_eq_true'] at hs
    obtain ⟨⟨⟨-, htest⟩, hne⟩, hbody⟩ := hs
    rw [Stmt.outline, Outline.lexemesAll, Outline.lexemesAll, List.append_nil] at hts
    obtain ⟨t, us, colon, newline, indent, vs, rfl, ht, hus, hcolon, hnewline, hindent, hvs⟩ :=
      written_head hts
    obtain ⟨n, hn, hexpression⟩ := expression_written htest hus
    obtain ⟨ns, hns, hblock⟩ := block_written body hbody hvs
    refine ⟨_, stmtRead_while info t hn (blockRead_of_forall₂ colon hne hns),
      fun {bound rest} hbound hrest => ?_⟩
    simp only [List.length_cons, List.length_append] at hbound
    obtain ⟨c, rfl⟩ : ∃ c, bound = c + 2 := ⟨bound - 2, by omega⟩
    rw [List.cons_append, List.append_assoc]
    exact statement_while ht (hexpression (closes_of_kind hcolon (by decide)))
      (body_block hcolon hnewline hindent (hblock (by omega))) hrest
  | .cond info (some test) body orElse, hs =>
    simp only [Stmt.inSourceForm, Bool.and_eq_true, Bool.not_eq_true'] at hs
    obtain ⟨⟨⟨htest, hne⟩, hbody⟩, helse⟩ := hs
    obtain ⟨t, us, ns, rfl, ht, harms, hparts⟩ := arm_written (.inl rfl) info htest hne hts
      (block_written body hbody) (alternatives_written orElse helse)
    refine ⟨_, stmtRead_if t harms, fun {bound rest} hbound hrest => ?_⟩
    obtain ⟨c, rfl⟩ : ∃ c, bound = c + 1 := ⟨bound - 1, by rw [List.length_cons] at hbound; omega⟩
    obtain ⟨n, b, more, vs, ws, rfl, hexpression, hbody, halternatives⟩ :=
      hparts c rest hbound hrest
    exact statement_if ht hexpression hbody halternatives

/-- The grammar takes in the tokens of a block in source form. -/
theorem block_written (stmts : List (Stmt Unit)) (hstmts : Stmt.allInSourceForm stmts = true)
    {ts : List Token}
    (hts : Written source
      (Outline.lexemesAll (Stmt.outlineAll stmts) ++ [Lexeme.layout .dedent]) ts) :
    ReadsBlock source stmts ts := by
  match stmts, hstmts with
  | [], _ =>
    obtain ⟨t, rfl, ht⟩ := Written.singleton hts
    refine ⟨[], .nil, fun {bound rest} hbound => ?_⟩
    obtain ⟨c, rfl⟩ : ∃ c, bound = c + 1 := ⟨bound - 1, by simp at hbound; omega⟩
    exact block_end ht.kind
  | s :: stmts, hstmts =>
    simp only [Stmt.allInSourceForm, Bool.and_eq_true] at hstmts
    rw [Stmt.outlineAll, lexemesAll_append, List.append_assoc] at hts
    obtain ⟨us, vs, rfl, hus, hvs⟩ := Written.append hts
    obtain ⟨n, hn, hstatement⟩ := statement_written s hstmts.1 hus
    obtain ⟨ns, hns, hblock⟩ := block_written stmts hstmts.2 hvs
    obtain ⟨t, us, rfl, ht⟩ := statement_starts hstmts.1 hus
    refine ⟨n :: ns, .cons hn hns, fun {bound rest} hbound => ?_⟩
    have hpos : 0 < vs.length := by
      rw [← hvs.length_eq, List.length_append]
      exact Nat.succ_pos _
    simp only [List.length_cons, List.length_append] at hbound
    obtain ⟨c, rfl⟩ : ∃ c, bound = c + 1 := ⟨bound - 1, by omega⟩
    rw [List.append_assoc, List.cons_append]
    refine block_statement (kind_ne_of_startsStatement ht rfl)
      (kind_ne_of_startsStatement ht rfl) ?_ (hblock (by omega))
    exact hstatement (by rw [List.length_cons]; omega) (noArm_block rfl hstmts.2 hvs)

/-- The grammar takes in the tokens of other arms in source form. -/
theorem alternatives_written (orElse : Option (Stmt Unit))
    (horElse : Stmt.elseInSourceForm orElse = true) {ts : List Token}
    (hts : Written source (Outline.lexemesAll (Stmt.outlineElse orElse)) ts) :
    ReadsElse source orElse ts := by
  match orElse, horElse with
  | none, _ =>
    cases List.forall₂_nil_left_iff.mp hts
    refine ⟨[], rfl, fun {bound rest} hbound hrest => ?_⟩
    obtain ⟨c, rfl⟩ : ∃ c, bound = c + 2 := ⟨bound - 2, by omega⟩
    exact alternatives_of_noArm hrest
  | some (.cond info none body none), hs =>
    simp only [Stmt.elseInSourceForm, Stmt.inSourceForm, Bool.and_eq_true,
      Bool.not_eq_true'] at hs
    obtain ⟨⟨-, hne⟩, hbody⟩ := hs
    rw [Stmt.outlineElse, Stmt.outline, Stmt.outlineElse, Outline.lexemesAll, Outline.lexemesAll,
      List.append_nil] at hts
    obtain ⟨t, ws, ht, hws, rfl⟩ := List.forall₂_cons_left_iff.mp hts
    obtain ⟨colon, xs, hcolon, hxs, rfl⟩ := List.forall₂_cons_left_iff.mp hws
    obtain ⟨newline, ys, hnewline, hys, rfl⟩ := List.forall₂_cons_left_iff.mp hxs
    obtain ⟨indent, vs, hindent, hvs, rfl⟩ := List.forall₂_cons_left_iff.mp hys
    obtain ⟨ns, hns, hblock⟩ := block_written body hbody hvs
    refine ⟨_, armsRead_else info t (blockRead_of_forall₂ colon hne hns),
      fun {bound rest} hbound hrest => ?_⟩
    simp only [List.length_cons] at hbound
    obtain ⟨c, rfl⟩ : ∃ c, bound = c + 3 := ⟨bound - 3, by omega⟩
    exact alternatives_else ht.kind
      (body_block hcolon.kind hnewline.kind hindent.kind (hblock (by omega)))
  | some (.cond info (some test) body orElse), hs =>
    simp only [Stmt.elseInSourceForm, Stmt.inSourceForm, Bool.and_eq_true,
      Bool.not_eq_true'] at hs
    obtain ⟨⟨⟨htest, hne⟩, hbody⟩, helse⟩ := hs
    obtain ⟨t, us, ns, rfl, ht, harms, hparts⟩ := arm_written (.inr rfl) info htest hne hts
      (block_written body hbody) (alternatives_written orElse helse)
    refine ⟨_, harms, fun {bound rest} hbound hrest => ?_⟩
    obtain ⟨c, rfl⟩ : ∃ c, bound = c + 1 := ⟨bound - 1, by omega⟩
    obtain ⟨n, b, more, vs, ws, rfl, hexpression, hbody, halternatives⟩ :=
      hparts c rest (by omega) hrest
    exact alternatives_elif ht hexpression hbody halternatives

end

end Source

end WatCompiler
