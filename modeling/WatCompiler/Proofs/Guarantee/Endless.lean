import WatCompiler.Proofs.Machine.Turns
import WatCompiler.Proofs.Validation.Ready

/-!
# Code that never ends

`NeverEnds code` says that no execution of the code, whatever is around it and whatever the values
are, comes to what follows the code. `Endless` is a sign of that which can be seen in the code: on
every way through it, past instructions whose branches stay inside themselves (`Tame`), there is a
return. Main statement: endless code never ends (`neverEnds_of_endless`).

The invariant behind it is `Trapped`: of what the function has left to do, the part in front of what
follows the code is guarded by endless code, which no branch in that part leads around.
-/

namespace WatCompiler

/-- Instructions without branches and without other instructions in them. -/
def Instr.IsFlat : Instr → Prop
  | br _ | brIf _ | block _ _ | loop _ _ | cond _ | badConst _ | unknown _ => False
  | _ => True

namespace Code

open State (Turn chosenArm)

/-- However the code is executed, the function never goes on with what follows it. It may return,
trap, or run forever. -/
def NeverEnds (code : List Datum) : Prop :=
  ∀ (m : Module) (limit : Nat) (rest : List Datum) (more : List Control) (s t : State),
    [] ∉ labelsOf more → s.current.todo = .seq (code ++ rest) :: more →
      ¬ State.GetsTo m limit s.callers (.seq rest :: more) s t

/-- Branches of the instruction go to the given labels or to its own. -/
inductive Tame : List Text → Datum → Prop
  | flat {labels : List Text} {d : Datum} (instr : d.instr.IsFlat) : Tame labels d
  | branch {labels : List Text} {d : Datum} {label : Text}
      (instr : d.instr = .br label ∨ d.instr = .brIf label) (mem : label ∈ labels) : Tame labels d
  | block {labels : List Text} {d label : Datum} {body : List Datum}
      (instr : d.instr = .block (some label) body) (ne_nil : label.text ≠ [])
      (tame : ∀ x ∈ body, Tame (label.text :: labels) x) : Tame labels d
  | loop {labels : List Text} {d label : Datum} {body : List Datum}
      (instr : d.instr = .loop (some label) body) (ne_nil : label.text ≠ [])
      (tame : ∀ x ∈ body, Tame (label.text :: labels) x) : Tame labels d
  | cond {labels : List Text} {d : Datum} {arms : List Datum} (instr : d.instr = .cond arms)
      (tame : ∀ arm ∈ arms, ∀ x ∈ arm.items.tail, Tame labels x) : Tame labels d

namespace Tame

variable {labels : List Text} {d label : Datum} {body : List Datum}

theorem of_block (h : Tame labels d) (hd : d.instr = .block (some label) body) :
    label.text ≠ [] ∧ ∀ x ∈ body, Tame (label.text :: labels) x := by
  cases h with
  | block instr ne_nil tame =>
    cases hd.symm.trans instr
    exact ⟨ne_nil, tame⟩
  | _ => simp_all [Instr.IsFlat]

theorem of_loop (h : Tame labels d) (hd : d.instr = .loop (some label) body) :
    label.text ≠ [] ∧ ∀ x ∈ body, Tame (label.text :: labels) x := by
  cases h with
  | loop instr ne_nil tame =>
    cases hd.symm.trans instr
    exact ⟨ne_nil, tame⟩
  | _ => simp_all [Instr.IsFlat]

/-- The arms of a conditional open no label. -/
theorem of_cond (h : Tame labels d) {arms : List Datum} (hd : d.instr = .cond arms) :
    ∀ arm ∈ arms, ∀ x ∈ arm.items.tail, Tame labels x := by
  cases h with
  | cond instr tame =>
    cases hd.symm.trans instr
    exact tame
  | _ => simp_all [Instr.IsFlat]

/-- A tame branch goes to a label that is open. -/
theorem of_branch (h : Tame labels d) {label : Text}
    (hd : d.instr = .br label ∨ d.instr = .brIf label) : label ∈ labels := by
  cases h with
  | @branch _ _ label' instr mem =>
    have hsame : label = label' := by
      rcases hd with hd | hd <;> rw [hd] at instr <;> simpa using instr
    rwa [← hsame] at mem
  | _ => rcases hd with hd | hd <;> simp_all [Instr.IsFlat]

end Tame

/-- Every way through the code comes to a return. -/
inductive Endless : List Datum → Prop
  | ret {d : Datum} {code : List Datum} (instr : d.instr = .ret) : Endless (d :: code)
  | skip {d : Datum} {code : List Datum} (tame : Tame [] d) (rest : Endless code) :
      Endless (d :: code)
  | cond {d : Datum} {code arms : List Datum} (instr : d.instr = .cond arms)
      (chosen : ∀ v, chosenArm v arms ≠ none) (endless : ∀ arm ∈ arms, Endless arm.items.tail) :
      Endless (d :: code)

/-- Tame code ahead of endless code is passed, and what follows does not end. -/
theorem Endless.append_left {code rest : List Datum} (hcode : ∀ d ∈ code, Tame [] d)
    (hrest : Endless rest) : Endless (code ++ rest) := by
  induction code with
  | nil => exact hrest
  | cons d code ih =>
    obtain ⟨hd, hcode⟩ := List.forall_mem_cons.mp hcode
    exact .skip hd (ih hcode)

/-- Nothing is reached behind endless code. -/
theorem Endless.append_right {code : List Datum} (h : Endless code) (rest : List Datum) :
    Endless (code ++ rest) := by
  induction h with
  | ret instr => exact .ret instr
  | skip tame _ ih => exact .skip tame ih
  | cond instr chosen arms => exact .cond instr chosen arms

/-! ## Guarded work -/

/-- The part of what is left to do in front of `code` is guarded: it ends with endless code, or
`code` is endless. Branches in front of the endless code go to the given labels, which are in front
of it, too. -/
inductive Guarded (code : List Datum) : List Text → List Control → Prop
  | here (endless : Endless code) : Guarded code [] []
  | inside {inner : List Datum} {todo : List Control} (endless : Endless inner)
      (named : [] ∉ labelsOf todo) : Guarded code [] (.seq inner :: todo)
  | seq {labels : List Text} {inner : List Datum} {todo : List Control}
      (tame : ∀ d ∈ inner, Tame labels d) (rest : Guarded code labels todo) :
      Guarded code labels (.seq inner :: todo)
  | block {labels : List Text} {name : Text} {height : Nat} {todo : List Control}
    (ne_nil : name ≠ [])
      (rest : Guarded code labels todo) : Guarded code (name :: labels) (.block name height :: todo)
  | loop {labels : List Text} {name : Text} {height : Nat} {body : List Datum} {todo : List Control}
      (ne_nil : name ≠ []) (tame : ∀ d ∈ body, Tame (name :: labels) d)
      (rest : Guarded code labels todo) :
      Guarded code (name :: labels) (.loop name height body :: todo)

namespace Guarded

variable {code : List Datum} {labels : List Text} {todo : List Control}

theorem named (h : Guarded code labels todo) : [] ∉ labelsOf todo := by
  induction h with
  | here => exact List.not_mem_nil
  | inside _ named => exact named
  | seq _ _ ih => exact ih
  | block ne_nil _ ih | loop ne_nil _ _ ih =>
    intro hmem
    rcases List.mem_cons.mp hmem with heq | hmem
    · exact ne_nil heq.symm
    · exact ih hmem

/-- A branch to one of the labels stays in front of the endless code. -/
theorem branchTo (h : Guarded code labels todo) {label : Text} (hlabel : label ∈ labels)
    (stack : OperandStack) (after : List Control) :
    ∃ labels' todo', (WatCompiler.branchTo label stack (todo ++ after)).1 = todo' ++ after ∧
      Guarded code labels' todo' := by
  induction h with
  | here => cases hlabel
  | inside => cases hlabel
  | seq _ _ ih => exact ih hlabel
  | @block labels name height todo ne_nil rest ih =>
    rw [List.cons_append, WatCompiler.branchTo]
    by_cases hname : name = label
    · rw [if_pos hname]
      exact ⟨labels, todo, rfl, rest⟩
    · rw [if_neg hname]
      exact ih ((List.mem_cons.mp hlabel).resolve_left fun heq => hname heq.symm)
  | @loop labels name height body todo ne_nil tame rest ih =>
    rw [List.cons_append, WatCompiler.branchTo]
    by_cases hname : name = label
    · rw [if_pos hname]
      exact ⟨name :: labels, .seq body :: .loop name height body :: todo, rfl,
        .seq tame (.loop ne_nil tame rest)⟩
    · rw [if_neg hname]
      exact ih ((List.mem_cons.mp hlabel).resolve_left fun heq => hname heq.symm)

end Guarded

/-! ## Trapped functions -/

/-- Between here and `rest` there is endless code. -/
def Trapped (rest : List Datum) (more todo : List Control) : Prop :=
  ∃ labels front code, todo = front ++ .seq (code ++ rest) :: more ∧ Guarded code labels front

section Steps

variable {m : Module} {limit : Nat} {rest : List Datum} {more : List Control}

/-- Trapped code has not come to its end. -/
theorem Trapped.todo_ne {todo : List Control} (h : Trapped rest more todo) :
    todo ≠ .seq rest :: more := by
  obtain ⟨labels, front, code, rfl, hguarded⟩ := h
  intro heq
  have hlength := congrArg List.length heq
  rw [List.length_append, List.length_cons, List.length_cons] at hlength
  have hfront : front = [] := List.eq_nil_of_length_eq_zero (by omega)
  subst hfront
  cases hguarded with
  | here endless =>
    injection heq with heq
    injection heq with heq
    cases List.append_left_eq_self.mp heq
    cases endless

/-- What a function that is trapped can come to: it is trapped, waits trapped, or is over. -/
def StaysTrapped (rest : List Datum) (more : List Control) (waiting : List Activation) (t : State) :
    Prop :=
  (t.callers = waiting ∧ Trapped rest more t.current.todo) ∨
    (∃ caller, t.callers = caller :: waiting ∧ Trapped rest more caller.todo) ∨
    t.callers.length < waiting.length

variable {waiting : List Activation} {t : State} {d : Datum} {code inner : List Datum}
  {todo front : List Control} {labels : List Text}

/-- Going back to the caller leaves the code for good. -/
theorem staysTrapped_of_goesBack (h : State.GoesBack waiting t) :
    StaysTrapped rest more waiting t := by
  obtain ⟨caller, stack, hcallers, -⟩ := h
  refine .inr (.inr ?_)
  rw [hcallers]
  exact Nat.lt_succ_self _

/-- A return with names on all blocks and loops is the end of the function. -/
theorem staysTrapped_of_returned {stack : OperandStack} (hnames : [] ∉ labelsOf todo)
    (htodo : t.current.todo = (returnFrom stack todo).1) (hne : t.current.todo ≠ []) :
    StaysTrapped rest more waiting t := by
  rw [Validation.returnFrom_eq hnames] at htodo
  exact absurd htodo hne

/-- A tame instruction leaves the guard where it is. -/
theorem staysTrapped_of_tame (hd : Tame labels d) (hguarded : Guarded code labels front)
    (hmore : [] ∉ labelsOf more)
    (heq : Control.seq inner :: todo = front ++ Control.seq (code ++ rest) :: more)
    (hturn : Turn d inner todo waiting t) : StaysTrapped rest more waiting t := by
  have hnames : [] ∉ labelsOf todo := by
    have hall : [] ∉ labelsOf (front ++ Control.seq (code ++ rest) :: more) := by
      rw [labelsOf_append, List.mem_append, not_or]
      exact ⟨hguarded.named, hmore⟩
    rwa [← heq] at hall
  cases hturn with
  | goesOn callers htodo => exact .inl ⟨callers, labels, front, code, htodo.trans heq, hguarded⟩
  | @entersBlock label body height instr callers htodo =>
    obtain ⟨hname, htame⟩ := hd.of_block instr
    refine .inl ⟨callers, _, .seq body :: .block label.text height :: front, code, ?_,
      .seq htame (.block hname hguarded)⟩
    rw [htodo, heq]
    rfl
  | @entersLoop label body height instr callers htodo =>
    obtain ⟨hname, htame⟩ := hd.of_loop instr
    refine .inl ⟨callers, _, .seq body :: .loop label.text height body :: front, code, ?_,
      .seq htame (.loop hname htame hguarded)⟩
    rw [htodo, heq]
    rfl
  | @chooses arms arm head body instr mem items callers htodo =>
    have hbody := hd.of_cond instr arm mem
    rw [items] at hbody
    refine .inl ⟨callers, labels, .seq body :: front, code, ?_, .seq hbody hguarded⟩
    rw [htodo, heq]
    rfl
  | @branches label stack instr callers htodo =>
    obtain ⟨labels', front', hbranch, hguarded'⟩ :=
      hguarded.branchTo (hd.of_branch instr) stack (.seq (code ++ rest) :: more)
    refine .inl ⟨callers, labels', front', code, ?_, hguarded'⟩
    rw [htodo, ← hbranch, ← heq, branchTo]
  | calls instr callers htodo =>
    exact .inr (.inl ⟨_, callers, labels, front, code, htodo.trans heq, hguarded⟩)
  | returns instr back => exact staysTrapped_of_goesBack back
  | restarts stack instr callers htodo hne => exact staysTrapped_of_returned hnames htodo hne

/-- The first instruction of endless code returns, or leads into endless code or past a tame
instruction. -/
theorem staysTrapped_of_endless {ahead : List Datum} (h : Endless (d :: ahead))
    (hskip : Endless ahead → Guarded code [] front) (hfront : [] ∉ labelsOf front)
    (hmore : [] ∉ labelsOf more)
    (heq : Control.seq inner :: todo = front ++ Control.seq (code ++ rest) :: more)
    (hturn : Turn d inner todo waiting t) : StaysTrapped rest more waiting t := by
  have hnames : [] ∉ labelsOf todo := by
    have hall : [] ∉ labelsOf (front ++ Control.seq (code ++ rest) :: more) := by
      rw [labelsOf_append, List.mem_append, not_or]
      exact ⟨hfront, hmore⟩
    rwa [← heq] at hall
  cases h with
  | skip tame hahead => exact staysTrapped_of_tame tame (hskip hahead) hmore heq hturn
  | ret hret =>
    cases hturn with
    | returns instr back => exact staysTrapped_of_goesBack back
    | restarts stack instr callers htodo hne => exact staysTrapped_of_returned hnames htodo hne
    | goesOn _ _ ne_ret => exact absurd hret ne_ret
    | calls instr => cases hret.symm.trans instr
    | entersBlock _ instr => cases hret.symm.trans instr
    | entersLoop _ instr => cases hret.symm.trans instr
    | chooses instr => cases hret.symm.trans instr
    | branches _ instr => rcases instr with h | h <;> cases hret.symm.trans h
  | cond hcond chosen harms =>
    cases hturn with
    | goesOn _ _ _ noArm =>
      obtain ⟨v, hv⟩ := noArm _ hcond
      exact absurd hv (chosen v)
    | @chooses arms arm head body instr mem items callers htodo =>
      cases instr.symm.trans hcond
      have hbody := harms arm mem
      rw [items] at hbody
      refine .inl ⟨callers, [], .seq body :: front, code, ?_, .inside hbody hfront⟩
      rw [htodo, heq]
      rfl
    | calls instr => cases hcond.symm.trans instr
    | entersBlock _ instr => cases hcond.symm.trans instr
    | entersLoop _ instr => cases hcond.symm.trans instr
    | branches _ instr => rcases instr with h | h <;> cases hcond.symm.trans h
    | returns instr => cases hcond.symm.trans instr
    | restarts _ instr => cases hcond.symm.trans instr

/-- A move of a trapped function. -/
theorem staysTrapped_of_step {s : State} (hmore : [] ∉ labelsOf more)
    (h : Trapped rest more s.current.todo) (hstep : s.step m limit = .running t) :
    StaysTrapped rest more s.callers t := by
  obtain ⟨labels, front, code, htodo, hguarded⟩ := h
  cases hguarded with
  | here endless =>
    cases code with
    | nil => cases endless
    | cons d ahead =>
      exact staysTrapped_of_endless endless .here List.not_mem_nil hmore rfl
        (State.turn_of_step htodo hstep)
  | @inside inner front endless named =>
    cases inner with
    | nil => cases endless
    | cons d ahead =>
      exact staysTrapped_of_endless endless (fun hahead => .inside hahead named) named hmore rfl
        (State.turn_of_step htodo hstep)
  | @seq labels inner front tame hrest =>
    cases inner with
    | nil =>
      rw [State.step, htodo] at hstep
      cases hstep
      exact .inl ⟨rfl, labels, front, code, rfl, hrest⟩
    | cons d ahead =>
      obtain ⟨hd, hahead⟩ := List.forall_mem_cons.mp tame
      exact staysTrapped_of_tame hd (.seq hahead hrest) hmore rfl (State.turn_of_step htodo hstep)
  | @block labels name height front ne_nil hrest =>
    rw [State.step, htodo] at hstep
    cases hstep
    exact .inl ⟨rfl, labels, front, code, rfl, hrest⟩
  | @loop labels name height body front ne_nil tame hrest =>
    rw [State.step, htodo] at hstep
    dsimp only [List.cons_append] at hstep
    rw [if_neg ne_nil] at hstep
    cases hstep
    exact .inl ⟨rfl, labels, front, code, rfl, hrest⟩

end Steps

/-- Endless code never ends. -/
theorem neverEnds_of_endless {code : List Datum} (h : Endless code) : NeverEnds code := by
  intro m limit rest more s t hmore htodo hgets
  have htrapped : Trapped rest more s.current.todo := ⟨[], [], code, htodo, .here h⟩
  obtain ⟨⟨above, a, hwaiting, ha⟩, hcallers, hafter⟩ := hgets.keeps
    (fun s t hs _ hstep halive => State.watches_of_step
      (fun htrapped hcallers hstep => hcallers ▸ staysTrapped_of_step hmore htrapped hstep)
      hs hstep halive)
    ⟨[], s.current, rfl, htrapped⟩ (fun _ => htrapped.todo_ne)
  -- The function has come to its end without a function above it, so it is the one that is trapped.
  have habove : above = [] := by
    have hlength := congrArg List.length hwaiting
    rw [hcallers, List.length_cons, List.length_append, List.length_cons] at hlength
    exact List.eq_nil_of_length_eq_zero (by omega)
  subst habove
  rw [← (List.cons.inj hwaiting).1] at ha
  exact ha.todo_ne hafter

end Code

end WatCompiler
