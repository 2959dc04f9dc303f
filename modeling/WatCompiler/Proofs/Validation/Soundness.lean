import WatCompiler.Module.Reader
import WatCompiler.Proofs.Machine.Moves
import WatCompiler.Proofs.Validation.Step

/-!
# Validated modules run safely

A module that was read from a text has only valid functions (`validModule_of_parse`). Running one of
them keeps the invariant `Sound`: the work that is left fits the operands in the current function
and in every function that waits. So a run can only fail in an ordinary way. The same list of moves,
looked at from inside a block, a loop or a conditional, shows that the instruction leaves the
operands as they were (`Completes.live_eq`).
-/

namespace WatCompiler

/-! ## Modules that were read are valid -/

namespace Validation

theorem runs_of_function {m : Module} {f : Func} (hwf : ∀ d ∈ f.body, d.WellFormed)
    (h : Validation.function m f = .ok ()) : Runs m f [] 0 f.body f.results := by
  unfold Validation.function at h
  split at h
  · cases h
  · obtain ⟨h', hseq, hend⟩ := bind_eq_ok.mp h
    split at hend
    · next he => exact ⟨hwf, [], h', by simp [hasLabel], hseq, he⟩
    · cases hend

theorem function_of_validate {m : Module} {fs : List Func} (h : m.validate fs = .ok ()) :
    ∀ f ∈ fs, Validation.function m f = .ok () := by
  induction fs with
  | nil => intro f hf; cases hf
  | cons g rest ih =>
    simp only [Module.validate] at h
    split at h
    · cases h
    · next hg => exact List.forall_mem_cons.mpr ⟨hg, ih h⟩

end Validation

namespace Module.Draft

/-- The functions that were read so far have well-formed bodies. -/
def WellFormed (draft : Draft) : Prop := ∀ f ∈ draft.functions, ∀ d ∈ f.body, d.WellFormed

theorem withFunction_wellFormed {draft draft' : Draft} {f : Func} (hd : draft.WellFormed)
    (hf : ∀ d ∈ f.body, d.WellFormed) (h : draft.withFunction f = .ok draft') :
    draft'.WellFormed := by
  unfold withFunction at h
  split at h
  · cases h
  · cases h
    intro g hg
    rcases List.mem_append.mp hg with hg | hg
    · exact hd g hg
    · rw [List.mem_singleton.mp hg]
      exact hf

theorem withFunctionItems_wellFormed {items : List Datum} :
    ∀ {draft draft' : Draft} {f : Func}, draft.WellFormed → (∀ d ∈ items, d.WellFormed) →
      (∀ d ∈ f.body, d.WellFormed) → draft.withFunctionItems f items = .ok draft' →
      draft'.WellFormed := by
  induction items with
  | nil => intro draft draft' f hd _ hf h; exact withFunction_wellFormed hd hf h
  | cons item rest ih =>
    intro draft draft' f hd hitems hf h
    have hrest := (List.forall_mem_cons.mp hitems).2
    simp only [withFunctionItems] at h
    split at h
    · split at h
      · split at h
        · cases h
        · cases h
          unfold withEntry WellFormed
          split <;> exact hd
      · cases h
    split at h
    · split at h
      · split at h
        · cases h
        · exact ih hd hrest (by exact hf) h
      · cases h
    split at h
    · split at h
      · exact ih hd hrest (by exact hf) h
      · cases h
    split at h
    · exact ih hd hrest (by exact hf) h
    split at h
    · split at h
      · exact ih hd hrest (by exact hf) h
      · cases h
    · exact withFunction_wellFormed hd hitems h

theorem withField_wellFormed {draft draft' : Draft} {field : Datum} (hd : draft.WellFormed)
    (hfield : field.WellFormed) (h : draft.withField field = .ok draft') : draft'.WellFormed := by
  have hitems : ∀ d ∈ field.items.drop 1, d.WellFormed :=
    fun d hmem => hfield.items d (List.mem_of_mem_drop hmem)
  unfold withField at h
  split at h
  · split at h
    · split at h
      · cases h; exact hd
      · cases h
    · cases h
  split at h
  · split at h
    · next heq =>
      rw [heq] at hitems
      exact withFunctionItems_wellFormed hd (List.forall_mem_cons.mp hitems).2
        (by simp [Func.empty]) h
    · exact withFunctionItems_wellFormed hd hitems (by simp [Func.empty]) h
  · cases h

theorem withFields_wellFormed {fields : List Datum} :
    ∀ {draft draft' : Draft}, draft.WellFormed → (∀ d ∈ fields, d.WellFormed) →
      draft.withFields fields = .ok draft' → draft'.WellFormed := by
  induction fields with
  | nil => intro draft draft' hd _ h; cases h; exact hd
  | cons field rest ih =>
    intro draft draft' hd hfields h
    obtain ⟨hfield, hrest⟩ := List.forall_mem_cons.mp hfields
    obtain ⟨next, hnext, h⟩ := bind_eq_ok.mp h
    exact ih (withField_wellFormed hd hfield hnext) hrest h

end Module.Draft

/-- Every function of a module that was read from a text is valid. -/
theorem validModule_of_parse {wat : Text} {m : Module} (h : Module.parse wat = .ok m) :
    Validation.ValidModule m := by
  unfold Module.parse at h
  split at h
  · cases h
  · next d hd =>
    have hwf := Datum.wellFormed_of_parse hd
    unfold Module.ofDatum at h
    split at h
    · obtain ⟨draft, hdraft, h⟩ := bind_eq_ok.mp h
      split at h
      · cases h
      · obtain ⟨⟨⟩, hvalid, h⟩ := bind_eq_ok.mp h
        cases h
        have hbodies : draft.WellFormed :=
          Module.Draft.withFields_wellFormed (by intro f hf; cases hf)
            (fun d hd => hwf.items d (List.mem_of_mem_drop hd)) hdraft
        intro f hf
        exact Validation.runs_of_function (hbodies f hf)
          (Validation.function_of_validate hvalid f hf)
    · cases h

namespace Validation

variable {m : Module} {limit : Nat}

/-! ## Runs of valid functions -/

/-- The functions that wait for `g` are ready for what it gives back. -/
def WaitsFor (m : Module) : Func → List Activation → Prop
  | _, [] => True
  | g, a :: rest =>
    (∃ todo, WorkFits m [] [] a.func.results g.results todo a) ∧ WaitsFor m a.func rest

/-- The work that is left fits the operands everywhere. -/
structure Sound (m : Module) (s : State) : Prop where
  current : ∃ todo, WorkFits m [] [] s.current.func.results 0 todo s.current
  callers : WaitsFor m s.current.func s.callers

/-- A function that gets back a value is ready to go on. -/
theorem workFits_giveBack {after : List Control} {floor : List Int32} {exit : Nat}
    {todo : List Control} {a : Activation} {g : Func} (value : Int32)
    (h : WorkFits m after floor exit g.results todo a) :
    WorkFits m after floor exit 0 todo
      { a with stack := if g.hasResult then a.stack.push value else a.stack } := by
  obtain ⟨htodo, hbelow, hready⟩ := h
  unfold Func.results at hready
  by_cases hr : g.hasResult = true
  · rw [if_pos hr] at hready ⊢
    exact ⟨htodo, hbelow.trans (List.suffix_cons _ _), hready⟩
  · rw [if_neg hr] at hready ⊢
    exact ⟨htodo, hbelow, hready⟩

/-- What a sound state leads to: another sound state, the end of the run, or an ordinary failure. -/
def SafeProgress (m : Module) : Progress → Prop
  | .running t => Sound m t
  | .ended _ none => True
  | .ended _ (some failure) => failure.IsOrdinary

theorem giveBack_safe {s : State} {value : Int32} (h : WaitsFor m s.current.func s.callers) :
    SafeProgress m (s.giveBack value) := by
  unfold State.giveBack
  split
  · trivial
  · next caller rest hcallers =>
    rw [hcallers] at h
    obtain ⟨⟨todo, hfits⟩, hrest⟩ := h
    exact ⟨⟨todo, workFits_giveBack value hfits⟩, hrest⟩

/-- What one move of the machine in a sound state can lead to. -/
theorem Sound.outcome (limit : Nat) {s : State} (h : Sound m s) :
    Outcome m [] [] s.current.func.results s (s.step m limit) := by
  obtain ⟨todo, hfits⟩ := h.current
  by_cases hne : todo = []
  · -- the code has ended with as many operands as the function gives back
    subst hne
    obtain ⟨htodo, -, hready⟩ := hfits
    have hheight : s.current.stack.height = s.current.func.results := hready
    rw [State.step, htodo]
    show Outcome m [] [] _ s s.fallOff
    simp only [State.fallOff, if_pos hheight]
    obtain ⟨t, value, ht, hc, hf⟩ := leave_eq (Nat.le_of_eq hheight.symm)
    rw [ht]
    exact .gives hc hf
  · exact step_outcome limit (by simp) hne hfits

/-- Every move of the machine in a sound state is safe. -/
theorem step_safe (limit : Nat) (hm : ValidModule m) {s : State} (h : Sound m s) :
    SafeProgress m (s.step m limit) := by
  have hout := h.outcome limit
  have hcallers := h.callers
  generalize s.step m limit = progress at hout
  cases hout with
  | stays todo hc hf hfits =>
    rw [← hf] at hfits hcallers
    exact ⟨⟨_, hfits⟩, by rw [hc]; exact hcallers⟩
  | calls waiting todo hmem hstarts hc hf hinside hfits =>
    obtain ⟨hfunc, hstart⟩ := workFits_start (hm _ hmem) hstarts
    rw [← hf] at hfits hcallers
    refine ⟨⟨_, by rw [hfunc]; exact hstart⟩, ?_⟩
    rw [hc, hfunc]
    exact ⟨⟨_, hfits⟩, hcallers⟩
  | gives hc hf => exact giveBack_safe (by rw [hc, hf]; exact hcallers)
  | escapes label stack hc htarget => cases htarget
  | fails hordinary => exact hordinary

theorem sound_of_moves (hm : ValidModule m) {n : Nat} {s t : State} (h : Sound m s)
    (hmoves : State.Moves m limit n s t) : Sound m t := by
  refine State.Moves.keeps (P := Sound m) ?_ h hmoves
  intro u v hu hstep
  have := step_safe limit hm hu
  rwa [hstep] at this

theorem isOrdinary_of_runFor (hm : ValidModule m) {fuel : Nat} {s t : State} {failure : Failure}
    (h : Sound m s) (hrun : s.runFor m limit fuel = some (t, some failure)) :
    failure.IsOrdinary := by
  obtain ⟨n, u, -, hmoves, hend⟩ := State.runFor_eq_some_iff.mp hrun
  have := step_safe limit hm (sound_of_moves hm h hmoves)
  rwa [hend] at this

theorem sound_start {f : Func} {args : List Int32} {a : Activation}
    (hf : Runs m f [] 0 f.body f.results) (ha : f.activate? args = some a)
    (globals : Table Int32) (steps : Nat) (out : Output) :
    Sound m ⟨globals, steps, out, a, []⟩ := by
  obtain ⟨hfunc, hstart⟩ := workFits_start hf ha
  exact ⟨⟨_, by rw [hfunc]; exact hstart⟩, trivial⟩

/-! ## Structured instructions leave the operands alone -/

/-- The run is inside an instruction that the function with the callers `callers` executes and
that is followed by `after`: that function has more to do before it comes to `after`. -/
def Inside (callers : List Activation) (after : List Control) (s : State) : Prop :=
  ∃ above a todo, s.current :: s.callers = above ++ a :: callers ∧ todo ≠ [] ∧
    a.todo = todo ++ after

/-- From the state `s`, in which an instruction starts, the run comes to `t`, in which the
instruction is over and the function goes on with what follows; in between it is inside the
instruction. -/
inductive Completes (m : Module) (limit : Nat) (callers : List Activation)
    (after : List Control) : State → State → Prop
  | last {s t : State} (step : s.step m limit = .running t) (same : t.callers = callers)
      (todo : t.current.todo = after) : Completes m limit callers after s t
  | more {s t u : State} (step : s.step m limit = .running t) (inside : Inside callers after t)
      (rest : Completes m limit callers after t u) : Completes m limit callers after s u

variable {callers : List Activation} {floor : List Int32} {d : Datum} {code : List Datum}
  {rest : List Control}

/-- One of the functions that wait for `g` is inside the instruction, with the operands `floor`
below those of the instruction. -/
def WatchedBelow (m : Module) (callers : List Activation) (after : List Control)
    (floor : List Int32) : Func → List Activation → Prop
  | _, [] => False
  | g, a :: rest =>
    (rest = callers ∧ ∃ todo, todo ≠ [] ∧ WorkFits m after floor floor.length g.results todo a) ∨
      WatchedBelow m callers after floor a.func rest

/-- The run is inside the instruction, with the operands `floor` below those of the instruction. -/
def Watched (m : Module) (callers : List Activation) (after : List Control)
    (floor : List Int32) (s : State) : Prop :=
  (s.callers = callers ∧
    ∃ todo, todo ≠ [] ∧ WorkFits m after floor floor.length 0 todo s.current) ∨
    WatchedBelow m callers after floor s.current.func s.callers

theorem WatchedBelow.length_lt {after : List Control} {g : Func} {waiting : List Activation}
    (h : WatchedBelow m callers after floor g waiting) : callers.length < waiting.length := by
  induction waiting generalizing g with
  | nil => exact h.elim
  | cons a rest ih =>
    rw [List.length_cons]
    rcases h with ⟨rfl, -⟩ | h
    · omega
    · have := ih h
      omega

theorem Inside.length_le {after : List Control} {s : State} (h : Inside callers after s) :
    callers.length ≤ s.callers.length := by
  obtain ⟨above, a, todo, he, -, -⟩ := h
  have := congrArg List.length he
  simp only [List.length_cons, List.length_append] at this
  omega

/-- Without other functions in between, the current function is inside the instruction. -/
theorem Inside.todo_of_callers {after : List Control} {s : State} (h : Inside callers after s)
    (hc : s.callers = callers) : ∃ todo, todo ≠ [] ∧ s.current.todo = todo ++ after := by
  obtain ⟨above, a, todo, he, hne, ha⟩ := h
  have hlen := congrArg List.length he
  rw [hc] at hlen he
  simp only [List.length_cons, List.length_append] at hlen
  have habove : above = [] := List.eq_nil_of_length_eq_zero (by omega)
  subst habove
  cases he
  exact ⟨todo, hne, ha⟩

/-- Inside an instruction the run has not come to what follows the instruction. -/
theorem Watched.todo_ne {after : List Control} {s : State} (h : Watched m callers after floor s)
    (hc : s.callers = callers) : s.current.todo ≠ after := by
  intro htodo
  rcases h with ⟨-, todo, hne, hfits⟩ | h
  · exact hne (List.append_left_eq_self.mp (hfits.inFront.symm.trans htodo))
  · have := h.length_lt
    rw [hc] at this
    omega

/-- A function gives back a value to one that is inside the instruction or waits for it. -/
theorem watched_giveBack {after : List Control} {s t : State} {value : Int32}
    (h : WatchedBelow m callers after floor s.current.func s.callers)
    (ht : s.giveBack value = .running t) : Watched m callers after floor t := by
  unfold State.giveBack at ht
  cases hw : s.callers with
  | nil =>
    rw [hw] at ht
    cases ht
  | cons a rest =>
    rw [hw] at h ht
    cases ht
    rcases h with ⟨hrest, todo, hne, hfits⟩ | h
    · exact Or.inl ⟨hrest, todo, hne, workFits_giveBack value hfits⟩
    · exact Or.inr h

/-- From inside an instruction, a move leads to a state inside it, or to its end with the operands
that were below, or out of it. -/
theorem watched_step (hm : ValidModule m) {s t : State} (hs : Sound m s)
    (hnames : [] ∉ labelsOf rest) (hends : EndsLoop (d :: code) rest)
    (h : Watched m callers (.seq code :: rest) floor s) (ht : s.step m limit = .running t) :
    (Inside callers (.seq code :: rest) t → Watched m callers (.seq code :: rest) floor t) ∧
      (t.callers = callers → t.current.todo = .seq code :: rest →
        t.current.stack.live = floor) := by
  rcases h with ⟨hcallers, todo, hne, hfits⟩ | h
  · -- the function itself moves
    have hnames' : [] ∉ labelsOf (.seq code :: rest) := hnames
    have hout := step_outcome limit hnames' hne hfits
    rw [ht] at hout
    generalize hp : Progress.running t = progress at hout
    cases hout with
    | stays todo hc hf hholds' =>
      cases hp
      constructor
      · intro hin
        refine Or.inl ⟨hc.trans hcallers, _, ?_, hholds'⟩
        obtain ⟨k, hk, htodo⟩ := hin.todo_of_callers (hc.trans hcallers)
        rwa [List.append_cancel_right (hholds'.inFront.symm.trans htodo)]
      · intro _ htodo
        have hnil := List.append_left_eq_self.mp (hholds'.inFront.symm.trans htodo)
        have hready := hholds'.ready
        rw [hnil] at hready
        exact (hholds'.below.eq_of_length (Eq.symm hready)).symm
    | calls waiting todo hmem hstarts hc hf hinside hholds' =>
      cases hp
      obtain ⟨hfunc, -⟩ := workFits_start (hm _ hmem) hstarts
      constructor
      · intro _
        refine Or.inr ?_
        rw [hc, hfunc, hcallers]
        exact Or.inl ⟨rfl, _, hinside, hholds'⟩
      · intro hsame _
        rw [hc, hcallers] at hsame
        exact absurd hsame (List.cons_ne_self _ _)
    | @gives u value hc hf =>
      -- the function is over, so it cannot be inside
      have hlt : t.callers.length < callers.length := by
        unfold State.giveBack at hp
        rw [hc, hcallers] at hp
        cases callers with
        | nil => cases hp
        | cons a waiting =>
          cases hp
          exact Nat.lt_succ_self _
      constructor
      · intro hin
        have := hin.length_le
        omega
      · intro hsame _
        rw [hsame] at hlt
        omega
    | escapes label stack hc htarget htodo =>
      cases hp
      have hmem : label ∈ labelsOf rest := htarget
      have hne' := branchTo_ne stack hmem hends
      constructor
      · intro hin
        obtain ⟨k, -, hk⟩ := hin.todo_of_callers (hc.trans hcallers)
        exact absurd (htodo.symm.trans hk) (hne' k)
      · intro _ hafter
        exact absurd (htodo.symm.trans hafter) (hne' [])
    | fails => cases hp
  · -- a function that it waits for moves
    have hlen := h.length_lt
    have hout := hs.outcome limit
    rw [ht] at hout
    generalize hp : Progress.running t = progress at hout
    cases hout with
    | stays todo hc hf hholds' =>
      cases hp
      constructor
      · intro _
        refine Or.inr ?_
        rw [hc, hf]
        exact h
      · intro hsame _
        rw [← hsame, hc] at hlen
        omega
    | calls waiting todo hmem hstarts hc hf hinside hholds' =>
      cases hp
      constructor
      · intro _
        refine Or.inr ?_
        rw [hc]
        refine Or.inr ?_
        rw [hf]
        exact h
      · intro hsame _
        rw [← hsame, hc, List.length_cons] at hlen
        omega
    | @gives u value hc hf =>
      rw [← hc, ← hf] at h
      have hw := watched_giveBack h hp.symm
      constructor
      · intro _
        exact hw
      · intro hsame htodo
        exact absurd htodo (hw.todo_ne hsame)
    | escapes label stack hc htarget => cases htarget
    | fails => cases hp

/-- An instruction that is over leaves the operands that were below its own. -/
theorem Completes.live_of_watched (hm : ValidModule m) {s t : State}
    (hc : Completes m limit callers (.seq code :: rest) s t) (hs : Sound m s)
    (hnames : [] ∉ labelsOf rest) (hends : EndsLoop (d :: code) rest)
    (h : Watched m callers (.seq code :: rest) floor s) : t.current.stack.live = floor := by
  induction hc with
  | last hstep hsame htodo => exact (watched_step hm hs hnames hends h hstep).2 hsame htodo
  | more hstep hin _ ih =>
    have hsound := step_safe limit hm hs
    rw [hstep] at hsound
    exact ih hsound ((watched_step hm hs hnames hends h hstep).1 hin)

/-- The operands that a structured instruction leaves when it is over: those that it found, without
the condition of a conditional. -/
def operandsLeft? (live : List Int32) : Instr → Option (List Int32)
  | .block _ _ | .loop _ _ => some live
  | .cond _ => some live.tail
  | _ => none

/-- A structured instruction is entered, or is over at once; its operands are as they will be. -/
theorem watched_of_step {s t : State} {left : List Int32} (hs : Sound m s)
    (htodo : s.current.todo = .seq (d :: code) :: rest)
    (hleft : operandsLeft? s.current.stack.live d.instr = some left)
    (ht : s.step m limit = .running t) :
    Watched m s.callers (.seq code :: rest) left t ∨
      (t.callers = s.callers ∧ t.current.todo = .seq code :: rest ∧
        t.current.stack.live = left) := by
  obtain ⟨todo, hin, -, hready⟩ := hs.current
  rw [List.append_nil] at hin
  rw [← hin, htodo] at hready
  obtain ⟨-, own, count, final, -, hheight, hruns, -, -⟩ := hready
  have hnext := hruns.next
  rw [List.append_nil] at hnext
  unfold State.step at ht
  rw [htodo] at ht
  simp only at ht
  split at ht
  · cases ht
  unfold State.execute at ht
  cases hi : d.instr with
  | block label body =>
    rw [hi] at hleft hnext ht
    obtain ⟨name, rfl, hname, hbody, -⟩ := hnext
    cases hleft
    cases ht
    refine Or.inl (Or.inl ⟨rfl, [.seq body, .block name s.current.stack.height],
      List.cons_ne_nil _ _, rfl, List.suffix_refl _, ?_⟩)
    exact ready_block hname (Nat.le_refl _) hbody rfl
  | loop label body =>
    rw [hi] at hleft hnext ht
    obtain ⟨name, rfl, hname, hbody, -⟩ := hnext
    cases hleft
    cases ht
    refine Or.inl (Or.inl ⟨rfl, [.seq body, .loop name s.current.stack.height body],
      List.cons_ne_nil _ _, rfl, List.suffix_refl _, ?_⟩)
    exact ready_loop hname (Nat.le_refl _) hbody rfl
  | cond arms =>
    rw [hi] at hleft hnext ht
    obtain ⟨hcount, harms, -⟩ := hnext
    cases hleft
    have hlen : s.current.stack.live.length = own + count := hheight
    have htail : s.current.stack.live.tail.length = own + count - 1 := by
      rw [List.length_tail, hlen]
    obtain ⟨value, stack, hbelow, hh, hpop⟩ := pop_eq
      (s := { s.goOn (.seq code :: rest) s.current.stack with steps := s.steps + 1 })
      (List.tail_suffix s.current.stack.live) (Nat.le_refl _)
      (show s.current.stack.live.length = s.current.stack.live.tail.length + 1 by omega)
      (Nat.le_refl 1)
    have hlive : stack.live = s.current.stack.live.tail := (hbelow.eq_of_length hh.symm).symm
    simp only [hpop] at ht
    split at ht
    · cases ht
      exact Or.inr ⟨rfl, rfl, hlive⟩
    · next arm harm =>
      obtain ⟨word, body, hitems, hbody⟩ := harms arm (List.mem_of_find?_eq_some harm)
      simp only [hitems] at ht
      cases ht
      refine Or.inl (Or.inl ⟨rfl, [.seq body], List.cons_ne_nil _ _, rfl, hbelow, ?_⟩)
      exact ⟨trivial, _, 0, 0, Nat.le_refl _, hh, hbody, Or.inl rfl, rfl⟩
  | _ => rw [hi] at hleft; cases hleft

/-- **A structured instruction that comes to its end leaves the operands as they were.** -/
theorem Completes.live_eq (hm : ValidModule m) {s t : State} {left : List Int32}
    (hc : Completes m limit s.callers (.seq code :: rest) s t) (hs : Sound m s)
    (htodo : s.current.todo = .seq (d :: code) :: rest)
    (hleft : operandsLeft? s.current.stack.live d.instr = some left) :
    t.current.stack.live = left := by
  obtain ⟨todo, hin, -, hready⟩ := hs.current
  rw [List.append_nil] at hin
  rw [← hin, htodo] at hready
  have hnames : [] ∉ labelsOf rest := hready.labels_ne_nil
  have hends : EndsLoop (d :: code) rest := by
    have := hready.1
    rwa [List.append_nil] at this
  cases hc with
  | last hstep hsame hafter =>
    rcases watched_of_step hs htodo hleft hstep with hw | ⟨-, -, hlive⟩
    · exact absurd hafter (hw.todo_ne hsame)
    · exact hlive
  | more hstep hinside hrest =>
    rcases watched_of_step hs htodo hleft hstep with hw | ⟨hsame, hafter, -⟩
    · have hsound := step_safe limit hm hs
      rw [hstep] at hsound
      exact hrest.live_of_watched hm hsound hnames hends hw
    · obtain ⟨k, hk, hk'⟩ := hinside.todo_of_callers hsame
      exact absurd (List.append_left_eq_self.mp (hk'.symm.trans hafter)) hk

/-- A block of a function that is left at once by a branch to its own label. -/
theorem Completes.of_branch {m : Module} {s : State} {d inner label : Datum} {code : List Datum}
    {rest : List Control} (htodo : s.current.todo = .seq (d :: code) :: rest)
    (hd : d.instr = .block (some label) [inner]) (hinner : inner.instr = .br label.text)
    (hlabel : label.text ≠ []) : ∃ t, Completes m 0 s.callers (.seq code :: rest) s t := by
  have henter : ∃ u, s.step m 0 = .running u ∧ u.callers = s.callers ∧ u.current.todo =
      .seq [inner] :: .block label.text s.current.stack.height :: .seq code :: rest := by
    simp [State.step, htodo, State.execute, hd, State.enter, State.goOn]
  obtain ⟨u, hu, hcallers, htodo'⟩ := henter
  have hleave : ∃ t, u.step m 0 = .running t ∧ t.callers = u.callers ∧
      t.current.todo = .seq code :: rest := by
    simp [State.step, htodo', State.execute, hinner, State.branch, hlabel, State.goOn, branchTo]
  obtain ⟨t, ht, hcallers', hafter⟩ := hleave
  refine ⟨t, .more hu ⟨[], u.current, [.seq [inner], .block label.text _], ?_, ?_, htodo'⟩
    (.last ht (hcallers'.trans hcallers) hafter)⟩
  · rw [hcallers]
    rfl
  · exact List.cons_ne_nil _ _

end Validation

open Validation

/-- **Validated code is safe.** Every function of a module that was read from a text can be called
with as many arguments as it has parameters, whatever the globals, the steps so far, the limit and
the receiver of the output are. The run then fails only with a division by zero, an overflow, the
step limit or a receiver that refuses output, and every block, loop and conditional on its way that
comes to its end leaves the operands as they were. -/
theorem invoke_safe {wat : Text} {m : Module} (h : Module.parse wat = .ok m) {f : Func}
    (hf : f ∈ m.functions) {args : List Int32} (hargs : args.length = f.params.length)
    (globals : Table Int32) (steps limit : Nat) (out : Output) :
    ∃ a, f.activate? args = some a ∧
      (∀ fuel t failure,
        State.runFor m limit fuel ⟨globals, steps, out, a, []⟩ = some (t, some failure) →
          failure.IsOrdinary) ∧
      ∀ s, State.Reaches m limit ⟨globals, steps, out, a, []⟩ s →
        ∀ d code rest left, s.current.todo = .seq (d :: code) :: rest →
          operandsLeft? s.current.stack.live d.instr = some left →
            ∀ t, Completes m limit s.callers (.seq code :: rest) s t →
              t.current.stack.live = left := by
  have hm := validModule_of_parse h
  obtain ⟨a, ha⟩ := activate?_eq_some hargs
  have hstart := sound_start (hm f hf) ha globals steps out
  refine ⟨a, ha, fun fuel t failure hrun => isOrdinary_of_runFor hm hstart hrun, ?_⟩
  rintro s ⟨n, hmoves⟩ d code rest left htodo hleft t hcompletes
  exact hcompletes.live_eq hm (sound_of_moves hm hstart hmoves) htodo hleft

/-- A module whose first function divides nine by its argument, with a block between the two. -/
def quotientModule : Text :=
  "(module (func $f (param $a i32) (result i32) (i32.const 9) (block $b (br $b)) (local.get $a)
    (i32.div_s)) (func (export \"e\")))"

/-- A constant, then a block that is left at once. -/
def opensWithBlock (value : Int32) : List Datum → Bool
  | first :: d :: _ =>
    match first.instr, d.instr with
    | .const pushed, .block (some label) [inner] =>
      match inner.instr with
      | .br name => pushed = value ∧ name = label.text ∧ name ≠ []
      | _ => false
    | _, _ => false
  | _ => false

/-- The first function of the module, called with zero, and its block, which stands behind the
nine. -/
theorem invoke_safe_quotientModule :
    ∃ m f a s t d code, Module.parse quotientModule = .ok m ∧ f ∈ m.functions ∧
      f.activate? [0] = some a ∧
      (∀ fuel u failure,
        State.runFor m 0 fuel ⟨m.globals, 0, .empty none, a, []⟩ = some (u, some failure) →
          failure.IsOrdinary) ∧
      State.Reaches m 0 ⟨m.globals, 0, .empty none, a, []⟩ s ∧
      s.current.todo = [.seq (d :: code)] ∧
      operandsLeft? s.current.stack.live d.instr = some [9] ∧
      Completes m 0 s.callers [.seq code] s t ∧ t.current.stack.live = [9] := by
  have hshape : (Module.parse quotientModule).toOption.map (fun m => m.functions.map fun f =>
      (f.params.length, opensWithBlock 9 f.body)) = some [(1, true), (0, false)] := by
    decide +kernel
  obtain ⟨m, hm, hfunctions⟩ := toOption_map_eq_some.mp hshape
  obtain ⟨f, _, hcons, hf, -⟩ := List.map_eq_cons_iff.mp hfunctions
  obtain ⟨hparams, hbody⟩ := Prod.mk.inj hf
  have hmem : f ∈ m.functions := hcons ▸ List.mem_cons_self
  obtain ⟨a, ha, hrun, hleaves⟩ := invoke_safe hm hmem
    (show [0].length = f.params.length from hparams.symm) m.globals 0 0 (.empty none)
  obtain ⟨locals, -, hlocals⟩ := Option.map_eq_some_iff.mp ha
  unfold opensWithBlock at hbody
  split at hbody
  · next first d code hcode =>
    split at hbody
    · next pushed label inner hfirst hd =>
      split at hbody
      · next name hinner =>
        obtain ⟨rfl, rfl, hname⟩ := of_decide_eq_true hbody
        have hstep : ∃ s, State.step m 0 ⟨m.globals, 0, .empty none, a, []⟩ = .running s ∧
            s.current.todo = [.seq (d :: code)] ∧ s.current.stack.live = [9] := by
          rw [← hlocals, hcode]
          simp [State.step, State.execute, hfirst, State.push, State.goOn, OperandStack.push,
            OperandStack.empty]
        obtain ⟨s, hs, htodo, hlive⟩ := hstep
        have hleft : operandsLeft? s.current.stack.live d.instr = some [9] := by
          rw [hlive, hd]
          rfl
        obtain ⟨t, ht⟩ := Completes.of_branch (m := m) htodo hd hinner hname
        have hreaches := (⟨1, .single hs⟩ : State.Reaches m 0 _ s)
        exact ⟨m, f, a, s, t, d, code, hm, hmem, ha, hrun, hreaches, htodo, hleft, ht,
          hleaves s hreaches d code [] [9] htodo hleft t ht⟩
      · cases hbody
    · cases hbody
  · cases hbody

end WatCompiler
