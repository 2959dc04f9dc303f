import WatCompiler.Proofs.Validation.Ready

/-!
# What one move of the machine can do to valid code

A running function whose remaining work fits its operands (`WorkFits`) makes one move.
`step_outcome` lists everything that the move can be: it stays in the part that is looked at, calls
a function, gives back a value, branches out of the part, or fails in one of the four ordinary ways.
Invariants of whole runs are read off this list.
-/

namespace WatCompiler

/-- The failures that valid code can have: the arithmetic traps, the step limit, and a receiver that
refuses output. -/
def Failure.IsOrdinary : Failure → Prop
  | .trap .divideByZero | .trap .overflow | .stepLimit | .writeFailed => True
  | _ => False

namespace Validation

/-- A module all of whose functions are valid. -/
def ValidModule (m : Module) : Prop := ∀ f ∈ m.functions, Runs m f [] 0 f.body f.results

variable {m : Module} {limit : Nat} {after : List Control} {floor : List Int32} {exit : Nat}

/-- A running function is in the part `todo` of its work, in front of `after`. The operands `floor`
are at the bottom of its stack, and the part fits the stack as soon as `given` more operands are
there: those that a function that it waits for gives back. -/
structure WorkFits (m : Module) (after : List Control) (floor : List Int32) (exit given : Nat)
    (todo : List Control) (a : Activation) : Prop where
  inFront : a.todo = todo ++ after
  below : floor <:+ a.stack.live
  ready : Ready m a.func after floor.length exit todo (a.stack.height + given)

/-- What one move of the machine in the state `s` can lead to. -/
inductive Outcome (m : Module) (after : List Control) (floor : List Int32) (exit : Nat)
    (s : State) : Progress → Prop
  /-- The function goes on inside the part. -/
  | stays {t : State} (todo : List Control) (callers : t.callers = s.callers)
      (func : t.current.func = s.current.func)
      (holds : WorkFits m after floor exit 0 todo t.current) :
      Outcome m after floor exit s (.running t)
  /-- The function waits for another one, which starts. -/
  | calls {t : State} {g : Func} {args : List Int32} (waiting : Activation) (todo : List Control)
      (mem : g ∈ m.functions) (starts : g.activate? args = some t.current)
      (callers : t.callers = waiting :: s.callers) (func : waiting.func = s.current.func)
      (inside : todo ≠ []) (holds : WorkFits m after floor exit g.results todo waiting) :
      Outcome m after floor exit s (.running t)
  /-- The function is over. -/
  | gives {t : State} {value : Int32} (callers : t.callers = s.callers)
      (func : t.current.func = s.current.func) : Outcome m after floor exit s (t.giveBack value)
  /-- The function goes on behind the part. -/
  | escapes {t : State} (label : Text) (stack : OperandStack) (callers : t.callers = s.callers)
      (target : label ∈ labelsOf after) (todo : t.current.todo = (branchTo label stack after).1) :
      Outcome m after floor exit s (.running t)
  /-- The run ends with an ordinary failure. -/
  | fails {t : State} {failure : Failure} (ordinary : failure.IsOrdinary) :
      Outcome m after floor exit s (t.fail failure)

/-! ## Taking operands -/

/-- A function that has operands of its own, above the height `own`, can take one of them. -/
theorem pop_eq {s : State} {own count : Nat} (hbelow : floor <:+ s.current.stack.live)
    (habove : floor.length ≤ own) (hheight : s.current.stack.height = own + count)
    (hc : 1 ≤ count) :
    ∃ value stack, floor <:+ stack.live ∧ stack.height = own + (count - 1) ∧
      ∀ next, s.pop next = next value { s with current := { s.current with stack := stack } } := by
  obtain ⟨globals, steps, out, ⟨func, locals, ⟨live, spent⟩, todo⟩, callers⟩ := s
  simp only [OperandStack.height] at hheight
  cases live with
  | nil =>
    rw [List.length_nil] at hheight
    omega
  | cons value rest =>
    rw [List.length_cons] at hheight
    refine ⟨value, ⟨rest, value :: spent⟩, ?_, ?_, fun _ => rfl⟩
    · exact OperandStack.suffix_drop (n := 1) hbelow (by rw [List.length_cons]; omega)
    · show rest.length = own + (count - 1)
      omega

/-- A function with enough operands gives back a value. -/
theorem leave_eq {s : State} (h : s.current.func.results ≤ s.current.stack.height) :
    ∃ (t : State) (value : Int32), s.leave = t.giveBack value ∧ t.callers = s.callers ∧
      t.current.func = s.current.func := by
  unfold State.leave
  by_cases hr : s.current.func.hasResult = true
  · rw [if_pos hr]
    rw [Func.results, if_pos hr] at h
    obtain ⟨value, stack, -, -, hpop⟩ := pop_eq
      (List.nil_suffix : [] <:+ s.current.stack.live) (Nat.le_refl 0) (Nat.zero_add _).symm h
    exact ⟨_, value, hpop _, rfl, rfl⟩
  · rw [if_neg hr]
    exact ⟨s, 0, rfl, rfl, rfl⟩

/-! ## Calls -/

/-- With the right number of arguments, only writing can fail. -/
theorem host_call_cases {host : Host} {args : List Int32} (out : Output)
    (h : args.length = host.arity) :
    (∃ value out', host.call args out = .ok (value, out')) ∨
      host.call args out = .error .writeFailed := by
  have two : ∀ {args : List Int32}, args.length = 2 → ∃ a b, args = [a, b] := by
    intro args h
    match args, h with
    | [a, b], _ => exact ⟨a, b, rfl⟩
  cases host with
  | abs =>
    match args, h with
    | [a], _ => exact Or.inl ⟨_, _, rfl⟩
  | print =>
    obtain ⟨value, mode, rfl⟩ := two h
    rw [Host.call]
    cases out.write? ((PrintMode.ofCode mode).render value) with
    | none => exact Or.inr rfl
    | some out' => exact Or.inl ⟨0, out', rfl⟩
  | min => obtain ⟨a, b, rfl⟩ := two h; exact Or.inl ⟨_, _, rfl⟩
  | max => obtain ⟨a, b, rfl⟩ := two h; exact Or.inl ⟨_, _, rfl⟩
  | pow => obtain ⟨a, b, rfl⟩ := two h; exact Or.inl ⟨_, _, rfl⟩

theorem bindParams_isSome {params : List Text} {args : List Int32} (locals : Table Int32)
    (h : args.length = params.length) : ∃ t, bindParams locals params args = some t := by
  induction params generalizing args locals with
  | nil => exact ⟨locals, rfl⟩
  | cons param params ih =>
    cases args with
    | nil => simp at h
    | cons arg args => exact ih (locals.insert param arg) (by simpa using h)

/-- A function starts when it gets as many arguments as it has parameters. -/
theorem activate?_eq_some {f : Func} {args : List Int32} (h : args.length = f.params.length) :
    ∃ a, f.activate? args = some a := by
  obtain ⟨t, ht⟩ := bindParams_isSome [] h
  exact ⟨_, by rw [Func.activate?, ht]; rfl⟩

/-- At its start the whole work of a valid function fits its empty stack. -/
theorem workFits_start {f : Func} {args : List Int32} {a : Activation}
    (hf : Runs m f [] 0 f.body f.results) (ha : f.activate? args = some a) :
    a.func = f ∧ WorkFits m [] [] f.results 0 [.seq f.body] a := by
  obtain ⟨t, -, rfl⟩ := Option.map_eq_some_iff.mp ha
  exact ⟨rfl, rfl, List.nil_suffix,
    trivial, 0, 0, f.results, Nat.le_refl 0, rfl, hf, Or.inl rfl, Nat.zero_add _⟩

/-! ## One move -/

/-- What surrounds the code of a sequence whose own operands start at the height `own`. -/
structure Surrounds (m : Module) (f : Func) (after : List Control) (base exit : Nat)
    (code : List Datum) (todo : List Control) (own final : Nat) : Prop where
  above : base ≤ own
  ends : EndsLoop code (todo ++ after)
  leaves : todo = [] ∨ final = 0
  rest : Ready m f after base exit todo (own + final)

theorem Surrounds.ready {f : Func} {base own final count : Nat} {code : List Datum}
    {todo : List Control} (h : Surrounds m f after base exit code todo own final)
    (hr : Runs m f (labelsOf (todo ++ after)) count code final) :
    Ready m f after base exit (.seq code :: todo) (own + count) :=
  ⟨h.ends, own, count, final, h.above, rfl, hr, h.leaves, h.rest⟩

variable {s : State} {code : List Datum} {todo : List Control} {own count final : Nat}

/-- The function goes on with the code, with another number of own operands. -/
theorem Surrounds.stays {t : State} {n : Nat}
    (h : Surrounds m s.current.func after floor.length exit code todo own final)
    (htodo : t.current.todo = .seq code :: todo ++ after) (hcallers : t.callers = s.callers)
    (hfunc : t.current.func = s.current.func) (hbelow : floor <:+ t.current.stack.live)
    (hheight : t.current.stack.height = own + n)
    (hr : Runs m s.current.func (labelsOf (todo ++ after)) n code final) :
    Outcome m after floor exit s (.running t) := by
  refine .stays (.seq code :: todo) hcallers hfunc ⟨htodo, hbelow, ?_⟩
  rw [hfunc, Nat.add_zero, hheight]
  exact h.ready hr

/-- A branch goes on in this part of the code, or leaves it for a label around it. -/
theorem branch_outcome {t : State} {label : Text}
    (h : Surrounds m s.current.func after floor.length exit code todo own final)
    (htodo : t.current.todo = .seq code :: todo ++ after) (hcallers : t.callers = s.callers)
    (hfunc : t.current.func = s.current.func) (hbelow : floor <:+ t.current.stack.live)
    (hheight : own ≤ t.current.stack.height)
    (hlabel : IsTarget (labelsOf (todo ++ after)) label) :
    Outcome m after floor exit s (t.branch label) := by
  obtain ⟨hne, hmem⟩ := hlabel
  rw [State.branch, if_neg hne, htodo]
  by_cases hl : label ∈ labelsOf todo
  · have hfinal : final = 0 := by
      rcases h.leaves with rfl | h0
      · cases hl
      · exact h0
    obtain ⟨next, start, hb, hbase, hle, hready⟩ :=
      branchTo_ready t.current.stack h.rest hl (by omega)
    rw [List.cons_append, branchTo, hb]
    refine .stays next hcallers hfunc ⟨rfl, ?_, ?_⟩
    · show floor <:+ (t.current.stack.resize start).live
      rw [OperandStack.live_resize hle]
      refine OperandStack.suffix_drop hbelow ?_
      simp only [OperandStack.height] at hle ⊢
      omega
    · show Ready m t.current.func after floor.length exit next
        ((t.current.stack.resize start).height + 0)
      rw [OperandStack.height_resize hle, hfunc, Nat.add_zero]
      exact hready
  · rw [List.cons_append, branchTo, branchTo_append hl]
    rw [labelsOf_append, List.mem_append] at hmem
    exact .escapes label t.current.stack hcallers (hmem.resolve_left hl) rfl

/-- A return with enough operands gives back a value. -/
theorem return_outcome {t : State} (hafter : [] ∉ labelsOf after)
    (htodo : t.current.todo = .seq code :: todo ++ after) (hcallers : t.callers = s.callers)
    (hfunc : t.current.func = s.current.func) {height : Nat}
    (hrest : Ready m s.current.func after floor.length exit todo height)
    (hheight : s.current.func.results ≤ t.current.stack.height) :
    Outcome m after floor exit s t.ret := by
  have hnames : [] ∉ labelsOf t.current.todo := by
    rw [htodo, List.cons_append, labelsOf_seq, labelsOf_append, List.mem_append, not_or]
    exact ⟨hrest.labels_ne_nil, hafter⟩
  rw [State.ret, returnFrom_eq hnames]
  obtain ⟨u, value, hu, hc, hf⟩ :=
    leave_eq (s := t.goOn [] t.current.stack) (by rw [← hfunc] at hheight; exact hheight)
  show Outcome m after floor exit s (t.goOn [] t.current.stack).leave
  rw [hu]
  exact .gives (hc.trans hcallers) (hf.trans hfunc)

/-- A call with enough operands starts a valid function, or the host gives a value. -/
theorem call_outcome {t : State} {name : Text} {params results : Nat}
    (h : Surrounds m s.current.func after floor.length exit code todo own final)
    (htodo : t.current.todo = .seq code :: todo ++ after) (hcallers : t.callers = s.callers)
    (hfunc : t.current.func = s.current.func) (hbelow : floor <:+ t.current.stack.live)
    (hheight : t.current.stack.height = own + count)
    (hsig : m.signature? name = some (params, results)) (hcount : params ≤ count)
    (hr : Runs m s.current.func (labelsOf (todo ++ after)) (count - params + results) code final) :
    Outcome m after floor exit s (t.call m name) := by
  obtain ⟨stack, hpop, hlive⟩ := OperandStack.popMany?_eq_some (s := t.current.stack) (n := params)
    (by omega) []
  have hargs : ((t.current.stack.live.take params).reverse ++ []).length = params := by
    simp only [OperandStack.height] at hheight
    simp only [List.append_nil, List.length_reverse, List.length_take]
    omega
  generalize (t.current.stack.live.take params).reverse ++ [] = args at hpop hargs
  have hstack : stack.height = own + (count - params) := by
    rw [OperandStack.height, hlive, List.length_drop]
    simp only [OperandStack.height] at hheight
    omega
  have habove := h.above
  have hbelow' : floor <:+ stack.live := by
    rw [hlive]
    refine OperandStack.suffix_drop hbelow ?_
    simp only [OperandStack.height] at hheight
    omega
  rw [State.call, hsig]
  simp only [Option.map_some, Option.getD_some, hpop]
  unfold Module.signature? at hsig
  cases himp : m.imports.find? name with
  | some host =>
    rw [himp] at hsig
    cases hsig
    rcases host_call_cases t.out hargs with ⟨value, out, hcall⟩ | hcall
    · simp only [State.goOn, hcall]
      refine h.stays htodo hcallers hfunc ?_ ?_ hr
      · exact hbelow'.trans (List.suffix_cons value stack.live)
      · simp only [State.push, OperandStack.height_push, hstack]
        omega
    · simp only [State.goOn, hcall]
      exact .fails trivial
  | none =>
    rw [himp] at hsig
    obtain ⟨g, hg, hsig⟩ := Option.map_eq_some_iff.mp hsig
    cases hsig
    obtain ⟨callee, hcallee⟩ := activate?_eq_some hargs
    simp only [hg, Option.bind_some, hcallee]
    refine .calls (t.goOn t.current.todo stack).current (.seq code :: todo)
      (List.mem_of_find?_eq_some hg) hcallee (by rw [← hcallers]; rfl) hfunc
      (List.cons_ne_nil _ _) ⟨htodo, hbelow', ?_⟩
    show Ready m t.current.func after floor.length exit (.seq code :: todo)
      (stack.height + g.results)
    rw [hstack, hfunc, Nat.add_assoc]
    exact h.ready hr

/-- Arithmetic fails only by division. -/
theorem arith_failure_isOrdinary {op : ArithOp} {lhs rhs : Int32} {trap : Trap}
    (h : op.apply lhs rhs = .error trap) : (Failure.trap trap).IsOrdinary := by
  cases op with
  | div =>
    simp only [ArithOp.apply] at h
    repeat' split at h
    all_goals cases h
    all_goals trivial
  | rem =>
    simp only [ArithOp.apply] at h
    repeat' split at h
    all_goals cases h
    all_goals trivial
  | _ => cases h

/-- What executing an instruction of valid code can lead to. -/
theorem execute_outcome {t : State} {d : Datum} (hafter : [] ∉ labelsOf after)
    (h : Surrounds m s.current.func after floor.length exit code todo own final)
    (htodo : t.current.todo = .seq code :: todo ++ after) (hcallers : t.callers = s.callers)
    (hfunc : t.current.func = s.current.func) (hbelow : floor <:+ t.current.stack.live)
    (hheight : t.current.stack.height = own + count)
    (hd : Continues m s.current.func (labelsOf (todo ++ after)) count code final d.instr) :
    Outcome m after floor exit s (t.execute m d) := by
  have habove := h.above
  unfold State.execute
  cases hi : d.instr with
  | const value =>
    rw [hi] at hd
    exact h.stays htodo hcallers hfunc (hbelow.trans (List.suffix_cons _ _))
      (by rw [State.push, OperandStack.height_push, hheight]; omega) hd
  | badConst fault => rw [hi] at hd; exact hd.elim
  | localGet name =>
    rw [hi] at hd
    exact h.stays htodo hcallers hfunc (hbelow.trans (List.suffix_cons _ _))
      (by rw [State.push, OperandStack.height_push, hheight]; omega) hd
  | localSet name =>
    rw [hi] at hd
    obtain ⟨value, stack, hb, hh, hpop⟩ := pop_eq hbelow habove hheight hd.1
    simp only [hpop]
    exact h.stays htodo hcallers hfunc hb hh hd.2
  | globalGet name =>
    rw [hi] at hd
    exact h.stays htodo hcallers hfunc (hbelow.trans (List.suffix_cons _ _))
      (by rw [State.push, OperandStack.height_push, hheight]; omega) hd
  | globalSet name =>
    rw [hi] at hd
    obtain ⟨value, stack, hb, hh, hpop⟩ := pop_eq hbelow habove hheight hd.1
    simp only [hpop]
    exact h.stays htodo hcallers hfunc hb hh hd.2
  | call name =>
    rw [hi] at hd
    obtain ⟨params, results, hsig, hcount, hr⟩ := hd
    exact call_outcome h htodo hcallers hfunc hbelow hheight hsig hcount hr
  | ret =>
    rw [hi] at hd
    have hresults : s.current.func.results ≤ t.current.stack.height :=
      Nat.le_trans hd (by omega)
    exact return_outcome hafter htodo hcallers hfunc h.rest hresults
  | br label =>
    rw [hi] at hd
    exact branch_outcome h htodo hcallers hfunc hbelow (by omega) hd
  | brIf label =>
    rw [hi] at hd
    obtain ⟨hlabel, hc, hr⟩ := hd
    obtain ⟨value, stack, hb, hh, hpop⟩ := pop_eq hbelow habove hheight hc
    simp only [hpop]
    split
    · exact h.stays htodo hcallers hfunc hb hh hr
    · exact branch_outcome h htodo hcallers hfunc hb
        (by show own ≤ stack.height; omega) hlabel
  | block label body =>
    rw [hi] at hd
    obtain ⟨name, rfl, hname, hbody, hr⟩ := hd
    refine .stays (.seq body :: .block name t.current.stack.height :: .seq code :: todo)
      hcallers hfunc ⟨?_, hbelow, ?_⟩
    · show .seq body :: .block name t.current.stack.height :: t.current.todo = _
      rw [htodo]
      rfl
    · show Ready m t.current.func after floor.length exit _ (t.current.stack.height + 0)
      rw [hfunc, Nat.add_zero, hheight]
      exact ready_block hname (by omega) hbody (h.ready hr)
  | loop label body =>
    rw [hi] at hd
    obtain ⟨name, rfl, hname, hbody, hr⟩ := hd
    refine .stays (.seq body :: .loop name t.current.stack.height body :: .seq code :: todo)
      hcallers hfunc ⟨?_, hbelow, ?_⟩
    · show .seq body :: .loop name t.current.stack.height body :: t.current.todo = _
      rw [htodo]
      rfl
    · show Ready m t.current.func after floor.length exit _ (t.current.stack.height + 0)
      rw [hfunc, Nat.add_zero, hheight]
      exact ready_loop hname (by omega) hbody (h.ready hr)
  | cond arms =>
    rw [hi] at hd
    obtain ⟨hc, harms, hr⟩ := hd
    obtain ⟨value, stack, hb, hh, hpop⟩ := pop_eq hbelow habove hheight hc
    simp only [hpop]
    split
    · exact h.stays htodo hcallers hfunc hb hh hr
    · next arm harm =>
      obtain ⟨word, body, hitems, hbody⟩ := harms arm (List.mem_of_find?_eq_some harm)
      simp only [hitems]
      refine .stays (.seq body :: .seq code :: todo) hcallers hfunc ⟨?_, hb, ?_⟩
      · show .seq body :: t.current.todo = _
        rw [htodo]
        rfl
      · show Ready m t.current.func after floor.length exit _ (stack.height + 0)
        rw [hfunc, Nat.add_zero, hh]
        exact ⟨trivial, own + (count - 1), 0, 0, by omega, rfl, hbody, Or.inr rfl, h.ready hr⟩
  | arith op =>
    rw [hi] at hd
    obtain ⟨hc, hr⟩ := hd
    obtain ⟨rhs, stack, hb, hh, hpop⟩ := pop_eq hbelow habove hheight (by omega)
    obtain ⟨lhs, stack', hb', hh', hpop'⟩ :=
      pop_eq (s := { t with current := { t.current with stack := stack } }) hb habove hh (by omega)
    simp only [hpop, hpop']
    split
    · next trap htrap => exact .fails (arith_failure_isOrdinary htrap)
    · refine h.stays htodo hcallers hfunc (hb'.trans (List.suffix_cons _ _)) ?_ hr
      simp only [State.push, OperandStack.height_push, hh']
      omega
  | unknown head => rw [hi] at hd; exact hd.elim

/-- What one move of the machine can lead to while a function is inside the part that is looked
at. -/
theorem step_outcome (limit : Nat) (hafter : [] ∉ labelsOf after) (hne : todo ≠ [])
    (h : WorkFits m after floor exit 0 todo s.current) :
    Outcome m after floor exit s (s.step m limit) := by
  obtain ⟨htodo, hbelow, hready⟩ := h
  rw [Nat.add_zero] at hready
  unfold State.step
  cases todo with
  | nil => exact absurd rfl hne
  | cons c todo =>
    rw [htodo]
    cases c with
    | seq body =>
      obtain ⟨hends, own, count, final, habove, hheight, hr, hleaves, hrest⟩ := hready
      cases body with
      | nil =>
        refine .stays todo rfl rfl ⟨rfl, hbelow, ?_⟩
        show Ready m s.current.func after floor.length exit todo (s.current.stack.height + 0)
        rw [Nat.add_zero, hheight, hr.end_eq]
        exact hrest
      | cons d code =>
        simp only [List.cons_append]
        split
        · exact .fails trivial
        · have hends' : EndsLoop code (todo ++ after) := by
            unfold EndsLoop at hends ⊢
            split
            · next heq =>
              rw [heq] at hends
              exact (List.suffix_cons d code).trans hends
            · trivial
          exact execute_outcome hafter ⟨habove, hends', hleaves, hrest⟩ rfl rfl rfl hbelow hheight
            hr.next
    | block name start =>
      obtain ⟨hname, -, hheight, hrest⟩ := hready
      simp only [List.cons_append, if_neg hname]
      refine .stays todo rfl rfl ⟨rfl, hbelow, ?_⟩
      show Ready m s.current.func after floor.length exit todo (s.current.stack.height + 0)
      rw [Nat.add_zero, hheight]
      exact hrest
    | loop name start body =>
      obtain ⟨hname, -, hheight, -, hrest⟩ := hready
      simp only [List.cons_append, if_neg hname]
      refine .stays todo rfl rfl ⟨rfl, hbelow, ?_⟩
      show Ready m s.current.func after floor.length exit todo (s.current.stack.height + 0)
      rw [Nat.add_zero, hheight]
      exact hrest

end Validation

end WatCompiler
