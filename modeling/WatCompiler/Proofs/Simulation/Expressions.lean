import WatCompiler.Proofs.Simulation.Stands

/-!
# Code for expressions

The machine puts the value of an expression on the stack (`follows_expr`) if it does what the
program's own functions do (`CallsFollow`). The operators of the language are defined on integers,
so the arithmetic of words is compared with that of integers first.
-/

namespace WatCompiler

/-! ## Operators -/

/-- What a comparison or any other operator gives is of the type that checking says. -/
theorem BinaryOp.canHold_apply {op : BinaryOp} {operands type : Ty}
    (h : op.resultType? operands = some type) {lhs rhs v : Int32} (hv : op.apply lhs rhs = .ok v) :
    type.CanHold v := by
  rintro rfl
  have hbool : ∀ b : Bool, Except.ok (ε := Trap) b.toInt32 = .ok v → v = 0 ∨ v = 1 := by
    intro b hb
    cases hb
    exact Ty.bool.canHold_toInt32 b rfl
  cases op with
  | equal | is | notEqual | lessEqual | greaterEqual | less | greater => exact hbool _ hv
  | add | subtract | multiply | divide | remainder => cases operands <;> cases h
  | other =>
    cases hv
    exact .inl rfl

namespace Code

/-- The instruction for an operator does what the operator does. -/
theorem apply_binary {op : BinaryOp} {i : ArithOp} (h : binary op = .ok i) (lhs rhs : Int32) :
    i.apply lhs rhs = op.apply lhs rhs := by
  have hzero : rhs.toInt = 0 ↔ rhs = 0 := by rw [← Int32.toInt_inj]; rfl
  have hminus : rhs.toInt = -1 ↔ rhs = -1 := by rw [← Int32.toInt_inj]; rfl
  have hmin : lhs.toInt = -2 ^ 31 ↔ lhs = Int32.minValue := by rw [← Int32.toInt_inj]; rfl
  have hwords : Int32.ofInt lhs.toInt = lhs ∧ Int32.ofInt rhs.toInt = rhs :=
    ⟨Int32.ofInt_toInt lhs, Int32.ofInt_toInt rhs⟩
  cases op with
  | add =>
    cases h
    simp only [ArithOp.apply, BinaryOp.apply, Int32.ofInt_add, hwords]
  | subtract =>
    cases h
    simp only [ArithOp.apply, BinaryOp.apply, Int32.ofInt_sub, hwords]
  | multiply =>
    cases h
    simp only [ArithOp.apply, BinaryOp.apply, Int32.ofInt_mul, hwords]
  | divide =>
    cases h
    have hquotient : Int32.ofInt (lhs.toInt.tdiv rhs.toInt) = lhs / rhs := by
      rw [Int32.ofInt_tdiv (Int32.minValue_le_toInt lhs) (Int32.toInt_le lhs)
        (Int32.minValue_le_toInt rhs) (Int32.toInt_le rhs), hwords.1, hwords.2]
    simp only [ArithOp.apply, BinaryOp.apply, hzero, hminus, hmin, hquotient]
  | remainder =>
    cases h
    have hremainder : Int32.ofInt (lhs.toInt.tmod rhs.toInt) = lhs % rhs := by
      rw [Int32.ofInt_tmod (Int32.minValue_le_toInt lhs) (Int32.toInt_le lhs)
        (Int32.minValue_le_toInt rhs) (Int32.toInt_le rhs), hwords.1, hwords.2]
    simp only [ArithOp.apply, BinaryOp.apply, hzero]
    split
    · rfl
    · split
      · next hrhs =>
        rw [hminus.mpr hrhs, Int.tmod_neg, Int.tmod_one]
        rfl
      · rw [hremainder]
  | equal | is =>
    cases h
    simp only [ArithOp.apply, BinaryOp.apply, Int32.toInt_inj]
    rfl
  | notEqual =>
    cases h
    simp only [ArithOp.apply, BinaryOp.apply, ne_eq, Int32.toInt_inj]
    rfl
  | lessEqual | greaterEqual =>
    cases h
    simp only [ArithOp.apply, BinaryOp.apply, ge_iff_le, Int32.le_iff_toInt_le]
    rfl
  | less | greater =>
    cases h
    simp only [ArithOp.apply, BinaryOp.apply, gt_iff_lt, Int32.lt_iff_toInt_lt]
    rfl
  | other => cases h

variable {fr : Frame} {own : Table Int32} {w : World} {rest : List Datum} {more : List Control}
  {live : List Int32} {s : State} {n : Nat}

theorem follows_binary {op : BinaryOp} {i : ArithOp} (hop : binary op = .ok i) {operands type : Ty}
    (htype : op.resultType? operands = some type) {lhs rhs : Int32}
    (h : Stands fr own w (.seq ((Instr.arith i).form :: rest) :: more) (rhs :: lhs :: live) s) :
    Follows fr.code n (ExceptT.mk (pure (op.apply lhs rhs))) w s fun v w' t =>
      Stands fr own w' (.seq rest :: more) (v :: live) t ∧ type.CanHold v := by
  obtain ⟨t, ht, hstep⟩ := h.arith
  rw [apply_binary hop] at hstep
  cases hv : op.apply lhs rhs with
  | ok v =>
    rw [hv] at hstep
    exact Follows.of_step_done rfl hstep ⟨ht.push v, BinaryOp.canHold_apply htype hv⟩
  | error cause =>
    rw [hv] at hstep
    exact Follows.trap rfl hstep ht.shows

/-- The code for a unary operator does what the operator does. -/
theorem reaches_unary {op : UnaryOp} {code : List Instr} (hop : unary op = .ok code) {type : Ty}
    (htype : op.type? = some type) {v : Int32} (hv : type.CanHold v)
    (h : Stands fr own w (.seq (code.map Instr.form ++ rest) :: more) (v :: live) s) :
    ∃ t, State.Reaches fr.code 0 s t ∧
      Stands fr own w (.seq rest :: more) (op.apply v :: live) t ∧ type.CanHold (op.apply v) := by
  cases op with
  | not =>
    cases hop
    cases htype
    obtain ⟨t, hst, ht⟩ := h.const
    have hxor : ArithOp.xor.apply v 1 = .ok (UnaryOp.not.apply v) := by
      rcases hv rfl with rfl | rfl <;> decide
    obtain ⟨u, htu, hu⟩ := ht.arith_ok hxor
    exact ⟨u, ⟨2, t, hst, .single htu⟩, hu, Ty.bool.canHold_toInt32 _⟩
  | negate =>
    cases hop
    cases htype
    obtain ⟨t, hst, ht⟩ := h.const
    have hmul : ArithOp.mul.apply v (-1) = .ok (UnaryOp.negate.apply v) := by
      rw [UnaryOp.apply, ← Int.mul_neg_one, Int32.ofInt_mul, Int32.ofInt_toInt]
      rfl
    obtain ⟨u, htu, hu⟩ := ht.arith_ok hmul
    exact ⟨u, ⟨2, t, hst, .single htu⟩, hu, nofun⟩
  | plus =>
    cases hop
    cases htype
    exact ⟨s, ⟨0, rfl⟩, h, hv⟩
  | other => cases hop

/-! ## Calls -/

theorem find?_import (host : Host) :
    Table.find? (Host.all.map fun host => (identifier host.name, host)) (identifier host.name) =
      some host := by
  cases host <;> decide

/-- A call of a function of the host. -/
theorem call_host {m : Module} {p : Program Ty} (hm : IsModule p m) (s : State) {host : Host}
    {args : List Int32} {stack : OperandStack}
    (hpop : s.current.stack.popMany? [] host.arity = some (args, stack)) :
    s.call m (identifier host.name) = match host.call args s.out with
      | .error failure => (s.goOn s.current.todo stack).fail failure
      | .ok (value, out) =>
        .running ({ s.goOn s.current.todo stack with out := out }.push value) := by
  have himport : m.imports.find? (identifier host.name) = some host := by
    rw [hm.imports]
    exact find?_import host
  rw [State.call, Module.signature?, himport]
  simp only [Option.map_some, Option.getD_some, hpop]
  rfl

theorem Stands.callHost (hfr : fr.Fits) {host : Host} {args : List Int32}
    (hlen : args.length = host.arity)
    (h : Stands fr own w (.seq ((Instr.call (identifier host.name)).form :: rest) :: more)
      (args.reverse ++ live) s) :
    ∃ t, Stands fr own w (.seq rest :: more) live t ∧
      s.step fr.code 0 = match host.call args t.out with
        | .error failure => t.fail failure
        | .ok (value, out) => .running ({ t with out := out }.push value) := by
  obtain ⟨t, ht, hstep⟩ := h.step
  obtain ⟨stack, hpop, hlive⟩ := OperandStack.popMany?_reverse ht.live
  rw [hlen] at hpop
  refine ⟨t.goOn t.current.todo stack, ht.todo ▸ ht.goOn t.current.todo hlive, ?_⟩
  rw [hstep, State.execute,
    Instr.instr_form (show (Instr.call (identifier host.name)).IsCode from trivial)]
  exact call_host hfr.isModule t hpop

theorem render_printMode (type : Ty) (v : Int32) :
    (PrintMode.ofCode (printMode type).code).render v = type.render v := by
  cases type <;> rfl

/-- A function of the host that only gives a value. -/
theorem follows_host_value (hfr : fr.Fits) {host : Host} {values : List Int32} {v : Int32}
    (hlen : values.length = host.arity) (hcall : ∀ out, host.call values out = .ok (v, out))
    {x : Eval Int32} (hx : x w = some (.ok v, w))
    (h : Stands fr own w (.seq ((Instr.call (identifier host.name)).form :: rest) :: more)
      (values.reverse ++ live) s) :
    Follows fr.code n x w s fun v w' t =>
      Stands fr own w' (.seq rest :: more) (v :: live) t ∧ Ty.int.CanHold v := by
  obtain ⟨t, ht, hstep⟩ := h.callHost hfr hlen
  rw [hcall] at hstep
  exact Follows.of_step_done hx hstep ⟨ht.push v, nofun⟩

/-- Printing shows a value as its static type says. -/
theorem follows_print (hfr : fr.Fits) {type : Ty} {value : Int32}
    (h : Stands fr own w (.seq ((Instr.const (printMode type).code).form ::
      (Instr.call (identifier Host.print.name)).form :: rest) :: more) (value :: live) s) :
    Follows fr.code n (Host.print.apply [type] [value]) w s fun v w' t =>
      Stands fr own w' (.seq rest :: more) (v :: live) t ∧ Ty.none.CanHold v := by
  obtain ⟨t, hst, ht⟩ := h.const
  have hargs : Stands fr own w
      (.seq ((Instr.call (identifier Host.print.name)).form :: rest) :: more)
      ([value, (printMode type).code].reverse ++ live) t := ht
  obtain ⟨u, hu, hstep⟩ := hargs.callHost hfr rfl
  have hprint : Host.print.call [value, (printMode type).code] u.out =
      .ok (0, ⟨type.render value :: w.printed.reverse, none⟩) := by
    rw [hu.shows.out, ← render_printMode type value]
    rfl
  rw [hprint] at hstep
  have hshown : Shows { w with printed := w.printed ++ [type.render value] }
      { u with out := ⟨type.render value :: w.printed.reverse, none⟩ } :=
    ⟨hu.shows.globals, by rw [List.reverse_append]; rfl⟩
  have hnext : Stands fr own { w with printed := w.printed ++ [type.render value] }
      (.seq rest :: more) live { u with out := ⟨type.render value :: w.printed.reverse, none⟩ } :=
    ⟨hshown, hu.globals, hu.callers, hu.func, hu.todo, hu.live, hu.locals, hu.own⟩
  exact Follows.of_step hst (Follows.of_step_done rfl hstep ⟨hnext.push 0, nofun⟩)

/-- A built-in function does in the machine what it does in the program. -/
theorem follows_host (hfr : fr.Fits) (host : Host) {signature : Signature}
    (hsignature : builtins.find? host.name = some signature) {args : List (Expr Ty)}
    (hargs : signature.params.length = args.length) {values : List Int32}
    (hvalues : values.length = args.length) {code : List Instr}
    (hcode : hidden host.name args = .ok code)
    (h : Stands fr own w
      (.seq (code.map Instr.form ++ (Instr.call (identifier host.name)).form :: rest) :: more)
      (values.reverse ++ live) s) :
    Follows fr.code n (host.apply (args.map fun arg => arg.info.ann) values) w s fun v w' t =>
      Stands fr own w' (.seq rest :: more) (v :: live) t ∧ signature.returns.CanHold v := by
  have hlen : values.length = signature.params.length := hvalues.trans hargs.symm
  cases host with
  | print =>
    cases hsignature
    obtain ⟨arg, rfl⟩ := List.length_eq_one_iff.mp hargs.symm
    obtain ⟨value, rfl⟩ := List.length_eq_one_iff.mp hlen
    cases hcode
    exact follows_print hfr h
  | abs =>
    cases hsignature
    cases hcode
    obtain ⟨value, rfl⟩ := List.length_eq_one_iff.mp hlen
    exact follows_host_value hfr rfl (fun _ => rfl) rfl h
  | min =>
    cases hsignature
    cases hcode
    obtain ⟨lhs, rhs, rfl⟩ := List.length_eq_two.mp hlen
    exact follows_host_value hfr rfl (fun _ => rfl) rfl h
  | max =>
    cases hsignature
    cases hcode
    obtain ⟨lhs, rhs, rfl⟩ := List.length_eq_two.mp hlen
    exact follows_host_value hfr rfl (fun _ => rfl) rfl h
  | pow =>
    cases hsignature
    cases hcode
    obtain ⟨base, exponent, rfl⟩ := List.length_eq_two.mp hlen
    exact follows_host_value hfr rfl (fun _ => rfl) rfl h

/-- A call of one of the program's own functions is what `calls` says. -/
def CallsFollow (fr : Frame) (n : Nat) (calls : Text → List Int32 → Eval Int32) : Prop :=
  ∀ {own : Table Int32} {w : World} {rest : List Datum} {more : List Control} {live : List Int32}
    {s : State} {f : FuncDef Ty} {values : List Int32},
    f ∈ fr.program.functions → List.Forall₂ Ty.CanHold f.signature.params values →
    Stands fr own w (.seq ((Instr.call (identifier f.name)).form :: rest) :: more)
      (values.reverse ++ live) s →
    Follows fr.code n (calls f.name values) w s fun v w' t =>
      Stands fr own w' (.seq rest :: more) (v :: live) t ∧ f.returns.CanHold v

theorem ofName?_of_builtin {function : Text} {signature : Signature}
    (h : builtins.find? function = some signature) :
    ∃ host : Host, host.name = function ∧ Host.ofName? function = some host := by
  have hall : ∀ entry ∈ builtins, ∃ host ∈ Host.all, host.name = entry.1 ∧
      Host.ofName? entry.1 = some host := by
    decide +kernel
  obtain ⟨host, -, hname, hfound⟩ := hall _ (Table.mem_of_find? h)
  exact ⟨host, hname, hfound⟩

theorem ofName?_eq_none {function : Text} (h : builtins.find? function = none) :
    Host.ofName? function = none := by
  have hall : ∀ host ∈ Host.all, builtins.find? host.name ≠ none := by decide +kernel
  rw [Host.ofName?, List.find?_eq_none]
  intro host hhost he
  exact hall host hhost (by rw [eq_of_beq he]; exact h)

theorem exists_function {p : Program Ty} {function : Text} {signature : Signature}
    (h : p.scope.functions.find? function = some signature)
    (hbuiltin : builtins.find? function = none) :
    ∃ f ∈ p.functions, f.name = function ∧ f.signature = signature := by
  rw [Program.scope, Table.find?_append, hbuiltin] at h
  obtain ⟨f, hf, he⟩ := List.mem_map.mp (Table.mem_of_find? h)
  cases he
  exact ⟨f, hf, rfl, rfl⟩

/-! ## Expressions -/

variable {calls : Text → List Int32 → Eval Int32}

mutual

/-- The code of an expression puts its value on the stack. -/
theorem follows_expr (hfr : fr.Fits) (hcalls : CallsFollow fr n calls) (e : Expr Ty)
    (ht : e.WellTyped fr.scope) {code : List Instr}
    (hcode : expr fr.locals e = .ok code) {w : World}
    {live : List Int32} {s : State} {rest : List Datum}
    (h : Stands fr own w (.seq (code.map Instr.form ++ rest) :: more) live s) :
    Follows fr.code n (e.eval calls own) w s fun v w' t =>
      Stands fr own w' (.seq rest :: more) (v :: live) t ∧ e.info.ann.CanHold v := by
  match e, ht with
  | .literal info value, ht =>
    obtain ⟨word, hword, rfl⟩ := expr_literal_eq_ok.mp hcode
    cases literal_eq_ok hword
    obtain ⟨t, hstep, hnext⟩ := h.const
    exact Follows.of_step_done rfl hstep ⟨hnext, Ty.canHold_word (show value.type = _ from ht.symm)⟩
  | .ident info name, ht =>
    cases hcode
    obtain ⟨v, t, hv, hcan, hstep, hnext⟩ := h.get hfr ht
    refine Follows.of_step_done ?_ hstep ⟨hnext, hcan⟩
    show some (Except.ok ((own.find? name <|> w.globals.find? name).getD 0), w) = _
    rw [hv]
    rfl
  | .unary info op arg, ht =>
    obtain ⟨first, hfirst, second, hsecond, rfl⟩ := expr_unary_eq_ok.mp hcode
    rw [List.map_append, List.append_assoc] at h
    refine Follows.bind (follows_expr hfr hcalls arg ht.1 hfirst h) ?_
    rintro v w' t ⟨hstand, hv⟩
    obtain ⟨u, hreach, hu, hcan⟩ := reaches_unary hsecond ht.2.1 (ht.2.2 ▸ hv) hstand
    exact Follows.of_reaches hreach (Follows.pure ⟨hu, hcan⟩)
  | .binary info op lhs rhs, ht =>
    obtain ⟨left, hleft, right, hright, i, hi, rfl⟩ := expr_binary_eq_ok.mp hcode
    rw [List.map_append, List.map_append, List.append_assoc, List.append_assoc] at h
    refine Follows.bind (follows_expr hfr hcalls lhs ht.1 hleft h) ?_
    rintro a w' t ⟨hstand, -⟩
    refine Follows.bind (follows_expr hfr hcalls rhs ht.2.1 hright hstand) ?_
    rintro b w'' u ⟨hstand', -⟩
    exact follows_binary hi ht.2.2.2 hstand'
  | .paren info arg, ht =>
    have harg := follows_expr hfr hcalls arg ht.1 hcode h
    rw [ht.2] at harg
    exact harg
  | .call info function args, ht =>
    obtain ⟨signature, hfunction, hlen, hargs, hreturns⟩ := ht
    obtain ⟨first, hfirst, second, hsecond, rfl⟩ := expr_call_eq_ok.mp hcode
    rw [List.map_append, List.map_append, List.append_assoc, List.append_assoc] at h
    refine Follows.bind (follows_args hfr hcalls args hlen hargs hfirst h) ?_
    rintro values w' t ⟨hstand, hvalues⟩
    show Follows _ _ (match Host.ofName? function with
      | some host => host.apply (args.map fun arg => arg.info.ann) values
      | none => calls function values) _ _ fun v w' t => _ ∧ info.ann.CanHold v
    rw [hfr.functions] at hfunction
    rw [← hreturns]
    cases hbuiltin : builtins.find? function with
    | some found =>
      obtain ⟨host, rfl, hhost⟩ := ofName?_of_builtin hbuiltin
      rw [Program.scope, Table.find?_append, hbuiltin] at hfunction
      cases hfunction
      rw [hhost]
      exact follows_host hfr host hbuiltin hlen (hvalues.length_eq.symm.trans hlen) hsecond hstand
    | none =>
      obtain ⟨f, hf, rfl, rfl⟩ := exists_function hfunction hbuiltin
      rw [ofName?_eq_none hbuiltin]
      have hnot : f.name ≠ "print" := by
        intro he
        rw [he] at hbuiltin
        cases hbuiltin
      cases (if_neg hnot).symm.trans hsecond
      exact hcalls hf hvalues hstand

/-- The code of arguments puts their values on the stack. -/
theorem follows_args (hfr : fr.Fits) (hcalls : CallsFollow fr n calls) (args : List (Expr Ty))
    {params : List Ty} (hlen : params.length = args.length) (ht : ArgsTyped fr.scope params args)
    {code : List Instr} (hcode : exprs fr.locals args = .ok code) {w : World}
    {live : List Int32} {s : State} {rest : List Datum}
    (h : Stands fr own w (.seq (code.map Instr.form ++ rest) :: more) live s) :
    Follows fr.code n (evalArgs calls own args) w s fun values w' t =>
      Stands fr own w' (.seq rest :: more) (values.reverse ++ live) t ∧
        List.Forall₂ Ty.CanHold params values := by
  match args, ht with
  | [], _ =>
    cases hcode
    cases List.length_eq_zero_iff.mp hlen
    exact Follows.pure ⟨h, .nil⟩
  | e :: others, ht =>
    obtain ⟨first, hfirst, second, hsecond, rfl⟩ := exprs_cons_eq_ok.mp hcode
    obtain ⟨type, types, rfl⟩ := List.exists_cons_of_length_eq_add_one hlen
    rw [List.map_append, List.append_assoc] at h
    refine Follows.bind (follows_expr hfr hcalls e ht.1 hfirst h) ?_
    rintro v w' t ⟨hstand, hv⟩
    refine Follows.bind (follows_args hfr hcalls others (Nat.succ.inj hlen) ht.2.2 hsecond hstand)
      ?_
    rintro values w'' u ⟨hstand', hvalues⟩
    refine Follows.pure ⟨?_, .cons ?_ hvalues⟩
    · rw [List.reverse_cons, List.append_assoc]
      exact hstand'
    · rintro rfl
      exact hv (ht.2.1 nofun)

end

end Code

end WatCompiler
