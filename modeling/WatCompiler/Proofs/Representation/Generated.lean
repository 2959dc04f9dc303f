import WatCompiler.Proofs.Representation.Rules
import WatCompiler.Proofs.Simulation.Calls

/-!
# Generated code keeps representations

The code of a well-typed expression puts a word on the stack that stands for a value of the
expression's type (`straight_expr`), and one that is an identity puts one there (`straight_yields`).
The code of well-typed statements is typed wherever typed code follows it (`typed_stmts`); with it
the bodies of all functions of a compiled module are (`typed_function`, `typed_entry`).
-/

namespace WatCompiler.Representation

open Code
open Layout (data)

/-- The scope of a part of the program, in which `locals` are the part's own variables. -/
structure Inside (p : Program Ty) (scope : Scope) (locals : List Text) : Prop where
  globals : scope.globals = p.scope.globals
  functions : scope.functions = p.scope.functions
  locals : ∀ name, name ∈ locals ↔ (scope.local? name).isSome = true
  named : scope.Named

variable {p : Program Ty} {scope : Scope} {locals : List Text}

/-! ## Variables -/

theorem Inside.mem {name : Text} {type : Ty} (h : Inside p scope locals)
    (hname : scope.local? name = some type) : name ∈ locals := by
  rw [h.locals, hname]
  rfl

theorem Inside.not_mem {name : Text} (h : Inside p scope locals)
    (hname : scope.local? name = none) :
    name ∉ locals := by
  rw [h.locals, hname]
  exact Bool.false_ne_true

theorem Inside.local_named {name : Text} {type : Ty} (h : Inside p scope locals)
    (hname : scope.local? name = some type) : Token.isIdentifier name = true := by
  refine h.named.vars (show scope.lookup? name = some type from ?_)
  rw [Scope.lookup?, hname]
  rfl

theorem plain_get (h : Inside p scope locals) {name : Text} {type : Ty}
    (hname : scope.lookup? name = some type) (known : Known) :
    Plain p scope known (get locals name).form (type.Represents :: known) := by
  unfold Scope.lookup? at hname
  cases hlocal : scope.local? name with
  | some found =>
    rw [hlocal] at hname
    cases hname
    rw [Code.get, if_pos (h.mem hlocal)]
    exact .localGet (Instr.instr_form (i := .localGet _) trivial) hlocal
  | none =>
    rw [hlocal, h.globals] at hname
    rw [Code.get, if_neg (h.not_mem hlocal)]
    exact .globalGet (Instr.instr_form (i := .globalGet _) trivial) hname

theorem plain_set (h : Inside p scope locals) {name : Text} {type : Ty}
    (hname : scope.assignable? name = some type) (known : Known) :
    Plain p scope (type.Represents :: known) (set locals name).form known := by
  unfold Scope.assignable? at hname
  cases hlocal : scope.local? name with
  | some found =>
    rw [hlocal] at hname
    cases hname
    rw [Code.set, if_pos (h.mem hlocal)]
    exact .localSet (Instr.instr_form (i := .localSet _) trivial) hlocal fun _ => id
  | none =>
    rw [hlocal] at hname
    by_cases hinside : scope.inFunction = true
    · rw [if_pos hinside] at hname
      cases hname
    · rw [if_neg hinside, h.globals] at hname
      rw [Code.set, if_neg (h.not_mem hlocal)]
      exact .globalSet (Instr.instr_form (i := .globalSet _) trivial) hname fun _ => id

/-! ## Operators -/

/-- Logical negation, as `not` and the exit of a loop do it. -/
theorem xor_one (b : Bool) : ArithOp.xor.apply b.toInt32 1 = .ok (!b).toInt32 := by
  cases b <;> decide

theorem exists_bool {v : Int32} (h : Ty.bool.Represents v) : ∃ b : Bool, v = b.toInt32 := by
  rcases h with rfl | rfl
  · exact ⟨false, rfl⟩
  · exact ⟨true, rfl⟩

/-- The code for a negation. -/
theorem straight_negation {P R : Int32 → Prop} (hP : ∀ v, P v → Ty.bool.Represents v)
    (hR : ∀ b : Bool, P b.toInt32 → R (!b).toInt32) (known : Known) :
    Straight p scope (P :: known) ([Instr.const 1, .arith .xor].map Instr.form) (R :: known) := by
  refine .cons (.const (P := (· = 1)) (Instr.instr_form (i := .const _) trivial) rfl)
    (.single (.arith (Instr.instr_form (i := .arith _) trivial) ?_ fun _ => hP))
  rintro lhs rhs v hlhs rfl hv
  obtain ⟨b, rfl⟩ := exists_bool (hP lhs hlhs)
  rw [xor_one] at hv
  cases hv
  exact hR b hlhs

/-- Negation keeps truth values. -/
theorem straight_not (known : Known) :
    Straight p scope (Ty.bool.Represents :: known)
      ([Instr.const 1, .arith .xor].map Instr.form) (Ty.bool.Represents :: known) :=
  straight_negation (fun _ => id) (fun b _ => Ty.represents_toInt32 (!b)) known

theorem straight_unary {op : UnaryOp} {code : List Instr} (hop : unary op = .ok code) {type : Ty}
    (htype : op.type? = some type) (known : Known) :
    Straight p scope (type.Represents :: known) (code.map Instr.form)
      (type.Represents :: known) := by
  cases op with
  | not =>
    cases hop
    cases htype
    exact straight_not known
  | negate =>
    cases hop
    cases htype
    exact .cons (.const (P := fun _ => True) (Instr.instr_form (i := .const _) trivial) trivial)
      (.single
        (.arith (Instr.instr_form (i := .arith _) trivial) (fun _ _ _ _ _ _ => trivial) nofun))
  | plus =>
    cases hop
    exact .nil
  | other => cases hop

/-- No operator of the language is exclusive disjunction. -/
theorem binary_ne_xor {op : BinaryOp} {i : ArithOp} (h : binary op = .ok i) : i ≠ .xor := by
  rintro rfl
  cases op <;> cases h

theorem plain_binary {op : BinaryOp} {i : ArithOp} (hop : binary op = .ok i) {operands : Ty}
    {R : Int32 → Prop} (known : Known)
    (hvalue : ∀ lhs rhs v, operands.Represents lhs → operands.Represents rhs →
      op.apply lhs rhs = .ok v → R v) :
    Plain p scope (operands.Represents :: operands.Represents :: known) (Instr.arith i).form
      (R :: known) := by
  refine .arith (Instr.instr_form (i := .arith _) trivial) ?_ fun hxor =>
    absurd hxor (binary_ne_xor hop)
  intro lhs rhs v hlhs hrhs hv
  rw [apply_binary hop] at hv
  exact hvalue lhs rhs v hlhs hrhs hv

/-! ## Calls -/

/-- What is known of arguments. -/
def argsKnown (args : List (Expr Ty)) : Known := args.map fun e => e.info.ann.Represents

/-- Well-typed arguments are of the types of the parameters. -/
theorem argsKnown_params {params : List Ty} {args : List (Expr Ty)}
    (hlen : params.length = args.length) (h : ArgsTyped scope params args) :
    List.Forall₂ (fun (P : Int32 → Prop) (type : Ty) => ∀ v, P v → type.Represents v)
      (argsKnown args) params := by
  induction args generalizing params with
  | nil =>
    cases List.length_eq_zero_iff.mp hlen
    exact .nil
  | cons e rest ih =>
    obtain ⟨type, types, rfl⟩ := List.exists_cons_of_length_eq_add_one hlen
    refine .cons ?_ (ih (Nat.succ.inj hlen) h.2.2)
    intro v hv
    -- An argument of a parameter that takes everything has a type of its own.
    by_cases hany : type = .any
    · rw [hany]
      trivial
    · have htype : e.info.ann = type := h.2.1 hany
      exact htype ▸ hv

/-- What a call passes besides its arguments. -/
theorem straight_hidden (p : Program Ty) (scope : Scope) {function : Text} {args : List (Expr Ty)}
    {code : List Instr}
    (h : hidden function args = .ok code) (known : Known) :
    ∃ extra : Known, extra.length = (if function = "print" then 1 else 0) ∧
      Straight p scope known (code.map Instr.form) (extra.reverse ++ known) := by
  unfold Code.hidden at h
  split at h
  · next hprint =>
    split at h
    · cases h
      refine ⟨[fun _ => True], by rw [if_pos hprint]; rfl, .single ?_⟩
      exact .const (Instr.instr_form (i := .const _) trivial) trivial
    · cases h
  · next hprint =>
    cases h
    exact ⟨[], by rw [if_neg hprint]; rfl, .nil⟩

/-- The call after its arguments. -/
theorem straight_call (hs : Inside p scope locals) {function : Text} {signature : Signature}
    (hfunction : scope.functions.find? function = some signature) {args : List (Expr Ty)}
    (hlen : signature.params.length = args.length) (hargs : ArgsTyped scope signature.params args)
    {code : List Instr} (hcode : hidden function args = .ok code) (known : Known) :
    Straight p scope ((argsKnown args).reverse ++ known)
      (code.map Instr.form ++ [(Instr.call (identifier function)).form])
      (signature.returns.Represents :: known) := by
  obtain ⟨extra, hextra, hpass⟩ := straight_hidden p scope hcode
    ((argsKnown args).reverse ++ known)
  have hcount : (argsKnown args).length = signature.params.length := by
    rw [argsKnown, List.length_map, hlen]
  rw [hs.functions] at hfunction
  -- What is passed besides the arguments lies above them.
  refine hpass.append (.single ?_)
  rw [← List.append_assoc, ← List.reverse_append]
  cases hbuiltin : builtins.find? function with
  | some found =>
    rw [Program.scope, Table.find?_append, hbuiltin] at hfunction
    cases hfunction
    obtain ⟨host, rfl, -, harity⟩ := find?_import_of_builtin hbuiltin
    refine .host (Instr.instr_form (i := .call _) trivial) ?_ hbuiltin
    rw [List.length_append, hcount, hextra, harity]
  | none =>
    obtain ⟨f, hf, rfl, rfl⟩ := exists_function hfunction hbuiltin
    have hprint : f.name ≠ "print" := by
      intro he
      rw [he] at hbuiltin
      cases hbuiltin
    rw [if_neg hprint] at hextra
    rw [List.length_eq_zero_iff.mp hextra, List.append_nil]
    exact .call (Instr.instr_form (i := .call _) trivial) hf (argsKnown_params hlen hargs)

/-! ## Expressions -/

mutual

/-- The code of an expression puts a word of its type on the stack. -/
theorem straight_expr (hs : Inside p scope locals) (e : Expr Ty) (ht : e.WellTyped scope)
    {code : List Instr} (hcode : expr locals e = .ok code) (known : Known) :
    Straight p scope known (code.map Instr.form) (e.info.ann.Represents :: known) := by
  match e, ht with
  | .literal info value, ht =>
    obtain ⟨word, hword, rfl⟩ := expr_literal_eq_ok.mp hcode
    cases literal_eq_ok hword
    exact .single (.const (Instr.instr_form (i := .const _) trivial)
      (Ty.represents_word (show value.type = _ from ht.symm)))
  | .ident info name, ht =>
    cases hcode
    exact .single (plain_get hs ht known)
  | .unary info op arg, ht =>
    obtain ⟨first, hfirst, second, hsecond, rfl⟩ := expr_unary_eq_ok.mp hcode
    have harg := straight_expr hs arg ht.1 hfirst known
    rw [ht.2.2] at harg
    rw [List.map_append]
    exact harg.append (straight_unary hsecond ht.2.1 known)
  | .binary info op lhs rhs, ht =>
    obtain ⟨left, hleft, right, hright, i, hi, rfl⟩ := expr_binary_eq_ok.mp hcode
    have hlhs := straight_expr hs lhs ht.1 hleft known
    have hrhs := straight_expr hs rhs ht.2.1 hright (lhs.info.ann.Represents :: known)
    rw [← ht.2.2.1] at hrhs
    rw [List.map_append, List.map_append]
    refine (hlhs.append hrhs).append (.single (plain_binary hi known ?_))
    intro a b v _ _ hv
    exact BinaryOp.apply_represents ht.2.2.2 hv
  | .paren info arg, ht =>
    have harg := straight_expr hs arg ht.1 hcode known
    rw [ht.2] at harg
    exact harg
  | .call info function args, ht =>
    obtain ⟨signature, hfunction, hlen, hargs, hreturns⟩ := ht
    obtain ⟨first, hfirst, second, hsecond, rfl⟩ := expr_call_eq_ok.mp hcode
    have hcall := straight_call hs hfunction hlen hargs hsecond known
    rw [hreturns] at hcall
    rw [List.map_append, List.map_append, List.append_assoc]
    exact (straight_exprs hs args hargs hfirst known).append hcall

/-- The code of arguments puts words of their types on the stack. -/
theorem straight_exprs (hs : Inside p scope locals) (args : List (Expr Ty)) {params : List Ty}
    (ht : ArgsTyped scope params args) {code : List Instr} (hcode : exprs locals args = .ok code)
    (known : Known) :
    Straight p scope known (code.map Instr.form) ((argsKnown args).reverse ++ known) := by
  match args, ht with
  | [], _ =>
    cases hcode
    exact .nil
  | e :: rest, ht =>
    obtain ⟨first, hfirst, others, hothers, rfl⟩ := exprs_cons_eq_ok.mp hcode
    have hrest := straight_exprs hs rest ht.2.2 hothers (e.info.ann.Represents :: known)
    rw [List.map_append, argsKnown, List.map_cons, List.reverse_cons, List.append_assoc]
    exact (straight_expr hs e ht.1 hfirst known).append hrest

end

/-- What is known of the value that the code of an expression puts on the stack. -/
theorem straight_yields (hs : Inside p scope locals) {e : Expr Ty} (ht : e.WellTyped scope)
    {code : List Instr} (hcode : expr locals e = .ok code) (known : Known) :
    Straight p scope known (code.map Instr.form) (e.Yields :: known) := by
  -- An identity is typed once more from its operands; of all else no more than the type is known.
  by_cases hidentity : ∃ info lhs rhs, e = .binary info .is lhs rhs
  · obtain ⟨info, lhs, rhs, rfl⟩ := hidentity
    obtain ⟨left, hleft, right, hright, i, hi, rfl⟩ := expr_binary_eq_ok.mp hcode
    have hlhs := straight_expr hs lhs ht.1 hleft known
    have hrhs := straight_expr hs rhs ht.2.1 hright (lhs.info.ann.Represents :: known)
    rw [← ht.2.2.1] at hrhs
    rw [List.map_append, List.map_append]
    refine (hlhs.append hrhs).append (.single (plain_binary hi known ?_))
    intro a b v ha hb hv
    exact ⟨BinaryOp.apply_represents ht.2.2.2 hv, fun _ _ _ _ =>
      BinaryOp.is_apply ht.2.2.2 ha hb hv⟩
  · rw [Expr.yields_eq fun info lhs rhs he => hidentity ⟨info, lhs, rhs, he⟩]
    exact straight_expr hs e ht hcode known

/-! ## Statements -/

theorem typed_return {labels : List Text} (hinside : scope.inFunction = true) {known : Known}
    (rest : List Datum) :
    Typed p scope labels (scope.returns.Represents :: known) (Instr.ret.form :: rest) :=
  .ret (Instr.instr_form (i := .ret) trivial) hinside fun _ => id

/-- Returning zero is returning a value, whatever the type is. -/
theorem typed_return_zero {labels : List Text} (hinside : scope.inFunction = true)
    (rest : List Datum) :
    Typed p scope labels [] ([Instr.const 0, .ret].map Instr.form ++ rest) :=
  .plain (.const (Instr.instr_form (i := .const _) trivial) (Ty.represents_zero _))
    (typed_return hinside rest)

/-- The body of the loop for a loop of the program. -/
theorem typed_round (hs : Inside p scope locals) {test : Expr Ty} (ht : test.WellTyped scope)
    (htype : test.info.ann = .bool) {code : List Instr} (hcode : expr locals test = .ok code)
    (label : Nat) (labels : List Text) {body : List Layout}
    (hbody : ∀ {rest : List Datum},
      Typed p scope (loopLabel label :: blockLabel label :: labels) [] rest →
      Typed p scope (loopLabel label :: blockLabel label :: labels) [] (data body ++ rest)) :
    Typed p scope (loopLabel label :: blockLabel label :: labels) []
      (data (lines (code ++ [Instr.const 1, .arith .xor, .brIf (blockLabel label)]) ++ body ++
        lines [.br (loopLabel label)])) := by
  -- From the end of a round back: the branch to the next one, the body, the exit, the test.
  have hagain : Typed p scope (loopLabel label :: blockLabel label :: labels) []
      (data (lines [.br (loopLabel label)])) :=
    .br (Instr.instr_form (i := .br _) trivial) List.mem_cons_self
  have hexit : Typed p scope (loopLabel label :: blockLabel label :: labels) [Ty.bool.Represents]
      ((Instr.brIf (blockLabel label)).form ::
        (data body ++ data (lines [.br (loopLabel label)]))) :=
    .brIf (Instr.instr_form (i := .brIf _) trivial) (List.mem_cons_of_mem _ List.mem_cons_self)
      (hbody hagain)
  have htest := straight_expr hs test ht hcode []
  rw [htype] at htest
  rw [data_append, data_append, data_lines, List.map_append, List.append_assoc, List.append_assoc]
  exact htest.typed ((straight_not []).typed hexit)

mutual

/-- The code of a statement is typed in front of typed code. -/
theorem typed_stmt (hs : Inside p scope locals) (s : Stmt Ty) (ht : s.WellTyped scope)
    {label next : Nat} {code : List Layout} (hcode : stmt locals label s = .ok (code, next))
    {labels : List Text} {rest : List Datum} (hrest : Typed p scope labels [] rest) :
    Typed p scope labels [] (data code ++ rest) := by
  match s, ht with
  | .assign info target value, ht =>
    obtain ⟨first, hfirst, rfl, rfl⟩ := stmt_assign_eq_ok.mp hcode
    rw [data_lines, List.map_append, List.append_assoc]
    exact (straight_expr hs value ht.1 hfirst []).typed (.plain (plain_set hs ht.2 []) hrest)
  | .expr info value, ht =>
    obtain ⟨first, hfirst, rfl, rfl⟩ := stmt_expr_eq_ok.mp hcode
    rw [data_lines, List.map_append, List.append_assoc]
    exact (straight_expr hs value ht hfirst []).typed
      (.plain (.discard (Instr.instr_form (i := .localSet _) trivial)) hrest)
  | .ret info none, ht =>
    cases hcode
    exact typed_return_zero ht rest
  | .ret info (some value), ht =>
    obtain ⟨first, hfirst, rfl, rfl⟩ := stmt_ret_eq_ok.mp hcode
    have hvalue := straight_expr hs value ht.2.1 hfirst []
    rw [ht.2.2] at hvalue
    rw [data_lines, List.map_append, List.append_assoc]
    exact hvalue.typed (typed_return ht.1 rest)
  | .while_ info test body, ht =>
    obtain ⟨test', htest, body', last, hbody, rfl, rfl⟩ := stmt_while_eq_ok.mp hcode
    have hround := typed_round hs ht.1 ht.2.1 htest label labels
      fun hmore => typed_stmts hs body ht.2.2 hbody hmore
    have hloop : Typed p scope (blockLabel label :: labels) []
        [(nested ["loop", loopLabel label] _).datum] :=
      .loop (Instr.instr_form (i := .loop (some (.symbol (loopLabel label))) _) trivial)
        (loopLabel_ne_nil label) hround .nil
    exact .block (Instr.instr_form (i := .block (some (.symbol (blockLabel label))) _) trivial)
      (blockLabel_ne_nil label) hloop hrest
  | .cond info none body orElse, ht => exact typed_stmts hs body ht.2.1 hcode hrest
  | .cond info (some test) body orElse, ht =>
    obtain ⟨test', htest, body', middle, hbody, orElse', last, horElse, rfl, rfl⟩ :=
      stmt_cond_eq_ok.mp hcode
    have hthen : Typed p scope labels [] (data body' ++ []) :=
      typed_stmts hs body ht.2.1 hbody .nil
    rw [List.append_nil] at hthen
    rw [data_append, data_lines, List.append_assoc]
    refine (straight_expr hs test (ht.1 test rfl).1 htest []).typed ?_
    refine .cond
      (Instr.instr_form (i := .cond ((nested ["then"] body').datum :: data orElse')) trivial)
      ?_ hrest
    exact List.forall_mem_cons.mpr ⟨hthen, typed_arm hs orElse ht.2.2 horElse⟩
  | .pass info, _ =>
    cases hcode
    exact hrest

/-- The code of statements is typed in front of typed code. -/
theorem typed_stmts (hs : Inside p scope locals) (body : List (Stmt Ty))
    (ht : StmtsTyped scope body)
    {label next : Nat} {code : List Layout} (hcode : stmts locals label body = .ok (code, next))
    {labels : List Text} {rest : List Datum} (hrest : Typed p scope labels [] rest) :
    Typed p scope labels [] (data code ++ rest) := by
  match body, ht with
  | [], _ =>
    cases hcode
    exact hrest
  | s :: others, ht =>
    obtain ⟨first, middle, hfirst, second, last, hsecond, rfl, rfl⟩ := stmts_cons_eq_ok.mp hcode
    rw [data_append, List.append_assoc]
    exact typed_stmt hs s ht.1 hfirst (typed_stmts hs others ht.2 hsecond hrest)

/-- The code of the next arm of a conditional is typed. -/
theorem typed_arm (hs : Inside p scope locals) (orElse : Option (Stmt Ty))
    (ht : ArmTyped scope orElse)
    {label next : Nat} {code : List Layout} (hcode : arm locals label orElse = .ok (code, next))
    {labels : List Text} : ∀ arm ∈ data code, Typed p scope labels [] arm.items.tail := by
  match orElse, ht with
  | none, _ =>
    cases hcode
    exact List.forall_mem_nil _
  | some s, ht =>
    obtain ⟨body, last, hbody, rfl, rfl⟩ := arm_some_eq_ok.mp hcode
    have helse : Typed p scope labels [] (data body ++ []) := typed_stmt hs s ht hbody .nil
    rw [List.append_nil] at helse
    exact List.forall_mem_singleton.mpr helse

end

/-! ## Functions -/

/-- The code that gives local variables their values. -/
theorem straight_initialValues {vs : List (VarDef Ty)}
    (hvs : ∀ v ∈ vs, scope.local? v.name = some v.type ∧ v.literal.type = v.type)
    {init : List Instr}
    (hinit : initialValues vs = .ok init) : Straight p scope [] (init.map Instr.form) [] := by
  induction vs generalizing init with
  | nil =>
    cases hinit
    exact .nil
  | cons v others ih =>
    obtain ⟨word, hword, more, hmore, rfl⟩ := initialValues_cons_eq_ok.mp hinit
    cases literal_eq_ok hword
    obtain ⟨⟨hlocal, htype⟩, hothers⟩ := List.forall_mem_cons.mp hvs
    refine .cons (.const (Instr.instr_form (i := .const _) trivial) (Ty.represents_word htype)) ?_
    exact .cons (.localSet (Instr.instr_form (i := .localSet _) trivial) hlocal fun _ => id)
      (ih hothers hmore)

variable {m : Module}

theorem inside_function (hm : IsModule p m) (hp : p.Named) {f : FuncDef Ty} (hf : f ∈ p.functions)
    {g : Func} (hg : IsFunction f g) : Inside p (f.scope p.scope) (ownNames f) where
  globals := rfl
  functions := rfl
  locals := (declares_function hm hg).own
  named := (hp.functions f hf).scope hp.scope rfl

theorem inside_entry (hm : IsModule p m) (hp : p.Named) : Inside p p.scope [] where
  globals := rfl
  functions := rfl
  locals := (declares_entry hm).own
  named := hp.scope

theorem typed_function (hm : IsModule p m) (ht : p.WellTyped) (hp : p.Named) {f : FuncDef Ty}
    (hf : f ∈ p.functions) {g : Func} (hg : IsFunction f g) :
    Typed p (f.scope p.scope) [] [] g.body := by
  have htf := ht.functions f hf
  have hs := inside_function hm hp hf hg
  obtain ⟨init, code, next, hinit, hcode, hbody⟩ := hg.body
  have hend : Typed p (f.scope p.scope) [] [] (data (lines [.const 0, .ret])) :=
    typed_return_zero rfl []
  rw [hbody, data_append, data_append, data_lines, List.append_assoc]
  exact (straight_initialValues (local?_of_mem htf) hinit).typed
    (typed_stmts hs f.stmts htf.body hcode hend)

theorem typed_entry (hm : IsModule p m) (ht : p.WellTyped) (hp : p.Named) :
    Typed p p.scope [] [] m.entry.body := by
  obtain ⟨code, next, hcode, hbody⟩ := hm.entry.body
  have hstmts : Typed p p.scope [] [] (data code ++ []) :=
    typed_stmts (inside_entry hm hp) p.stmts ht.body hcode .nil
  rw [List.append_nil] at hstmts
  rw [hbody]
  exact hstmts

end WatCompiler.Representation
