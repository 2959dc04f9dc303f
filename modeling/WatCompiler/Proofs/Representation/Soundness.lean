import WatCompiler.Proofs.Program.Parts
import WatCompiler.Proofs.Representation.Runs

/-!
# Words stand for values in every run

In every state of a run of a compiled module, words stand for values of the types that checking gave
(`represents_of_compile`): those in global variables, in the parameters and local variables of all
functions that have been called, and those that expressions leave on the stack. With truth values
that are zero or one, exclusive disjunction with one is negation.
-/

namespace WatCompiler

open Code

/-- The parts of a program that become functions of its module: the name there, the variables that
are its own with their types, and the statements. -/
inductive Program.Part (p : Program Ty) : Option Text → Table Ty → List (Stmt Ty) → Prop
  | entry : p.Part none [] p.stmts
  | function {f : FuncDef Ty} (mem : f ∈ p.functions) :
      p.Part (some (identifier f.name)) f.localTypes f.stmts

namespace Representation

/-- In a state of a run, words stand for values of the types that checking gave. -/
structure Faithful (p : Program Ty) (m : Module) (limit : Nat) (t : State) : Prop where
  globals : Represented p.scope.globals.find? t.globals
  /-- Every function at work is the code of a part of the program, and has values of their types in
  its variables. -/
  locals : ∀ a ∈ t.current :: t.callers, ∃ types body, p.Part a.func.name types body ∧
    Represented types.find? a.locals
  /-- If the function at work is about to evaluate an expression and comes to the end of the
  expression's code, the stack has one word more than before, which stands for a value of the
  expression's type. An identity has given one. -/
  exprs : ∀ types body, p.Part t.current.func.name types body → ∀ e ∈ exprsIn body,
    ∀ code rest more u, expr types.names e = .ok code →
      t.current.todo = .seq (code.map Instr.form ++ rest) :: more →
      State.GetsTo m limit t.callers (.seq rest :: more) t u →
      ∃ v, u.current.stack.live = v :: t.current.stack.live ∧ e.info.ann.Represents v ∧
        ∀ info lhs rhs, e = .binary info .is lhs rhs → v = 1
  /-- Exclusive disjunction with one, in `not` and at the exit of a loop, is negation. -/
  negations : ∀ rest more,
    t.current.todo = .seq ((Instr.const 1).form :: (Instr.arith .xor).form :: rest) :: more →
    ∃ (b : Bool) (live : List Int32), t.current.stack.live = b.toInt32 :: live ∧
      ∀ u, State.GetsTo m limit t.callers (.seq rest :: more) t u →
        u.current.stack.live = (!b).toInt32 :: live

variable {p : Program Ty} {m : Module} {limit : Nat} {s t : State}

/-- The entry runs the statements of the program. -/
theorem part_entry (hm : IsModule p m) {g : Func} (hg : g = m.entry) :
    p.Part g.name [] p.stmts := by
  rw [hg, hm.entry.name]
  exact .entry

theorem part_function {f : FuncDef Ty} (hf : f ∈ p.functions) {g g' : Func} (hg : IsFunction f g)
    (hsame : g' = g) : p.Part g'.name f.localTypes f.stmts := by
  rw [hsame, hg.name]
  exact .function hf

/-- A function of the module is the code of one part only. -/
theorem part_unique (ht : p.WellTyped) {name : Option Text} {types types' : Table Ty}
    {body body' : List (Stmt Ty)} (h : p.Part name types body) (h' : p.Part name types' body') :
    types' = types ∧ body' = body := by
  cases h with
  | entry =>
    cases h'
    exact ⟨rfl, rfl⟩
  | @function f mem =>
    generalize hname : some (identifier f.name) = name at h'
    cases h' with
    | entry => cases hname
    | @function f' mem' =>
      have hsame : f = f' := List.inj_on_of_nodup_map (distinct_functions ht).1 mem mem'
        (identifier_injective (Option.some.inj hname))
      rw [hsame]
      exact ⟨rfl, rfl⟩

/-- What is known of the function at work. -/
structure AtWork (p : Program Ty) (scope : Scope) (types : Table Ty) (body : List (Stmt Ty))
    (a : Activation) : Prop where
  part : p.Part a.func.name types body
  inside : Inside p scope types.names
  locals : Represented scope.local? a.locals
  typed : StmtsTyped scope body
  work : ∃ known, Meets known a.stack.live ∧ TodoTyped p scope known a.todo

/-- The entry of a module is at work on the statements of the program. -/
theorem atWork_entry (hm : IsModule p m) (ht : p.WellTyped) (hp : p.Named) {a : Activation}
    (h : OperandsFit ⟨p.scope, m.entry, []⟩ (TodoTyped p p.scope) [] a) :
    AtWork p p.scope [] p.stmts a := by
  obtain ⟨known, hknown, htodo⟩ := h
  obtain ⟨values, hlive, hmeets⟩ := hknown.operands
  rw [List.append_nil] at hlive
  exact ⟨part_entry hm hknown.func, inside_entry hm hp, hknown.locals, ht.body, known,
    hlive ▸ hmeets, htodo⟩

/-- A function of a module is at work on its statements. -/
theorem atWork_function (hm : IsModule p m) (ht : p.WellTyped) (hp : p.Named) {f : FuncDef Ty}
    (hf : f ∈ p.functions) {a : Activation} (h : Runs p f [] a) :
    AtWork p (f.scope p.scope) f.localTypes f.stmts a := by
  obtain ⟨g, hg, known, hknown, htodo⟩ := h
  obtain ⟨values, hlive, hmeets⟩ := hknown.operands
  rw [List.append_nil] at hlive
  have hinside := inside_function hm hp hf hg
  rw [← names_localTypes] at hinside
  exact ⟨part_function hf hg hknown.func, hinside, hknown.locals, (ht.functions f hf).body, known,
    hlive ▸ hmeets, htodo⟩

/-- In every state, some part of the program is at work. -/
theorem atWork_of_inOrder (hm : IsModule p m) (ht : p.WellTyped) (hp : p.Named)
    (h : InOrder p m t) :
    ∃ scope types body, AtWork p scope types body t.current := by
  have hcalls := h.calls
  generalize t.callers = callers at hcalls
  cases hcalls with
  | base fits => exact ⟨_, _, _, atWork_entry hm ht hp fits⟩
  | above mem runs _ => exact ⟨_, _, _, atWork_function hm ht hp mem runs⟩

/-- Every function that has been called has values of their types in its variables. -/
theorem locals_of_stacked (hm : IsModule p m) {given : Known} {a : Activation}
    {callers : List Activation}
    (h : Stacked p (OperandsFit ⟨p.scope, m.entry, []⟩ (TodoTyped p p.scope)) [] given a callers) :
    ∀ b ∈ a :: callers, ∃ types body, p.Part b.func.name types body ∧
      Represented types.find? b.locals := by
  induction h with
  | base fits =>
    obtain ⟨known, hknown, -⟩ := fits
    exact List.forall_mem_singleton.mpr ⟨[], p.stmts, part_entry hm hknown.func, nofun⟩
  | @above _ f _ _ _ mem runs _ ih =>
    obtain ⟨g, hg, known, hknown, -⟩ := runs
    have hpart := part_function mem hg hknown.func
    exact List.forall_mem_cons.mpr ⟨⟨f.localTypes, f.stmts, hpart, hknown.locals⟩, ih⟩

/-! ## Negations -/

section Negations

variable {scope : Scope} {known known' : Known} {d : Datum} {labels : List Text} {code : List Datum}

/-- A constant or arithmetic in typed code is a plain instruction. -/
theorem Typed.plain_of_instr (h : Typed p scope labels known (d :: code))
    (hd : (∃ v, d.instr = .const v) ∨ ∃ op, d.instr = .arith op) :
    ∃ known', Plain p scope known d known' ∧ Typed p scope labels known' code := by
  cases h with
  | plain first rest => exact ⟨_, first, rest⟩
  | ret instr | br instr | brIf instr | block instr | loop instr | cond instr =>
    rw [instr] at hd
    rcases hd with ⟨_, hd⟩ | ⟨_, hd⟩ <;> cases hd

theorem Plain.of_const {v : Int32} (h : Plain p scope known d known') (hd : d.instr = .const v) :
    ∃ P, known' = P :: known := by
  cases h with
  | const => exact ⟨_, rfl⟩
  | localGet instr | globalGet instr | localSet instr | globalSet instr | discard instr
  | arith instr
  | host instr | call instr =>
    rw [instr] at hd
    cases hd

/-- What is negated is a truth value. -/
theorem Plain.of_xor (h : Plain p scope known d known') (hd : d.instr = .arith .xor) :
    ∃ Q P rest, known = Q :: P :: rest ∧ ∀ v, P v → Ty.bool.Represents v := by
  cases h with
  | arith instr value negates =>
    rw [instr] at hd
    exact ⟨_, _, _, rfl, negates (Instr.arith.inj hd)⟩
  | const instr | localGet instr | globalGet instr | localSet instr | globalSet instr
  | discard instr | host instr | call instr =>
    rw [instr] at hd
    cases hd

theorem toInt32_injective {b c : Bool} (h : b.toInt32 = c.toInt32) : b = c := by
  revert h
  cases b <;> cases c <;> decide

/-- What is negated is a truth value. -/
theorem Typed.negated
    (h : Typed p scope labels known ((Instr.const 1).form :: (Instr.arith .xor).form :: code)) :
    ∃ P rest, known = P :: rest ∧ ∀ v, P v → Ty.bool.Represents v := by
  have hconst : (Instr.const 1).form.instr = .const 1 := Instr.instr_form (i := .const _) trivial
  have hxor : (Instr.arith .xor).form.instr = .arith .xor :=
    Instr.instr_form (i := .arith _) trivial
  obtain ⟨middle, hfirst, hrest⟩ := h.plain_of_instr (.inl ⟨1, hconst⟩)
  obtain ⟨Q, rfl⟩ := hfirst.of_const hconst
  obtain ⟨last, hsecond, -⟩ := hrest.plain_of_instr (.inr ⟨.xor, hxor⟩)
  obtain ⟨_, P, rest, hknown, hbool⟩ := hsecond.of_xor hxor
  exact ⟨P, rest, (List.cons.inj hknown).2, hbool⟩

end Negations

/-- **States in order are faithful.** -/
theorem faithful_of_inOrder (hm : IsModule p m) (ht : p.WellTyped) (hp : p.Named)
    (h : InOrder p m t) : Faithful p m limit t := by
  obtain ⟨scope, types, body, hwork⟩ := atWork_of_inOrder hm ht hp h
  refine ⟨h.globals, locals_of_stacked hm h.calls, ?_, ?_⟩
  · intro types' body' hpart e he code rest more u hcode htodo hgets
    obtain ⟨rfl, rfl⟩ := part_unique ht hwork.part hpart
    have hstraight :=
      straight_yields hwork.inside (wellTyped_of_mem_exprsIn hwork.typed e he) hcode []
    have hne : code.map Instr.form ≠ [] := by
      intro hnil
      rw [hnil] at hstraight
      cases hstraight
    exact value_of_getsTo hm ht hp hwork.inside h.globals hwork.locals hstraight hne
      (List.nil_append _).symm .nil htodo hgets
  · intro rest more htodo
    -- The typing of what is left says that the operand is a truth value. With that value in hand
    -- the two instructions are typed anew, now with the exact result.
    obtain ⟨known, hmeets, htyped⟩ := hwork.work
    rw [htodo] at htyped
    obtain ⟨P, below, rfl, hbool⟩ := htyped.1.negated
    obtain ⟨v, live, hv, -, hlive⟩ := List.forall₂_cons_left_iff.mp hmeets
    obtain ⟨b, rfl⟩ := exists_bool (hbool v hv)
    refine ⟨b, live, hlive, ?_⟩
    intro u hgets
    have hstraight : Straight p scope [(· = b.toInt32)]
        ([Instr.const 1, .arith .xor].map Instr.form)
        [(· = (!b).toInt32)] := by
      refine straight_negation ?_ ?_ []
      · rintro v rfl
        exact Ty.represents_toInt32 b
      · intro c hc
        rw [toInt32_injective hc]
    have hsplit : t.current.stack.live = [b.toInt32] ++ live := hlive
    obtain ⟨v, hlive', rfl⟩ :=
      value_of_getsTo hm ht hp hwork.inside h.globals hwork.locals hstraight
      nofun hsplit (.cons rfl .nil) htodo hgets
    exact hlive'

end Representation

/-- **Words stand for values in every run.** In every state that a run of a compiled module gets to,
with whatever step limit and room for output, words stand for values of the types that checking
gave. -/
theorem represents_of_compile {source wat : Text} (h : compile source = .ok wat) :
    ∃ p m, checkSource source = .ok p ∧ Module.parse wat = .ok m ∧
      ∀ limit room n s t, (Machine.ofModule m limit).start? room = some s →
        State.Moves m limit n s t → Representation.Faithful p m limit t := by
  obtain ⟨p, m, hp, hwell, hnamed, hparse, hm⟩ := isModule_of_compile h
  refine ⟨p, m, hp, hparse, ?_⟩
  intro limit room n s t hstart hmoves
  have horder := Representation.inOrder_of_moves hm hwell hnamed hstart hmoves
  exact Representation.faithful_of_inOrder hm hwell hnamed horder

/-- A loop until a call gives true, with an identity as its argument. -/
def untilSource : Text :=
  "d:bool = False\ndef f(a:bool) -> bool:\n  return a\nwhile not d:\n  d = f(None is None)\n"

/-- The flag of a loop is zero or one at every move. -/
theorem represents_of_compile_untilSource :
    ∃ wat m s, compile untilSource = .ok wat ∧ Module.parse wat = .ok m ∧
      (Machine.ofModule m 0).start? none = some s ∧
      ∀ n t, State.Moves m 0 n s t →
        ∃ v, t.globals.find? (Text.ofString "$d") = some v ∧ (v = 0 ∨ v = 1) := by
  have hcompiled : (compile untilSource).toOption.map (fun wat =>
      (Module.parse wat).toOption.map fun m => ((Machine.ofModule m 0).start? none).isSome) =
        some (some true) := by
    decide +kernel
  have hglobal : (checkSource untilSource).toOption.map
      (fun p => p.scope.globals.find? (Text.ofString "d")) = some (some .bool) := by
    decide +kernel
  obtain ⟨wat, hwat, hstart⟩ := toOption_map_eq_some.mp hcompiled
  obtain ⟨p, m, hp, hm, hruns⟩ := represents_of_compile hwat
  rw [hp] at hglobal
  rw [hm] at hstart
  obtain ⟨s, hs⟩ := Option.isSome_iff_exists.mp (Option.some.inj hstart)
  refine ⟨wat, m, s, hwat, hm, hs, ?_⟩
  intro n t hmoves
  exact (hruns 0 none n s t hs hmoves).globals _ _ (Option.some.inj hglobal)

end WatCompiler
