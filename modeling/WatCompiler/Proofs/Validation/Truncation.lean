import WatCompiler.Proofs.Machine.Limit
import WatCompiler.Proofs.Machine.Turns
import WatCompiler.Proofs.Validation.Entry

/-!
# Limited runs

A run under a limit of steps always ends. What a limit bounds is the number of instructions, so the
rest of the moves must be bounded without it: in valid code, where blocks and loops have names, a
move that executes no instruction goes back to a caller or leaves less to do (`lowers_of_step`).

The end of a limited run is compared with runs under a higher limit, or under none. Either the limit
played no role, and both runs end in the same way, or the limited run is the beginning of the other
one.
-/

namespace WatCompiler

namespace State

variable {m : Module} {limit : Nat} {s t : State}

/-- A move that executes no instruction goes back to a caller or leaves less to do. Only a loop
without a name would be entered again without an instruction. -/
theorem lowers_of_step (hnames : [] ∉ labelsOf s.current.todo) (hinstr : s.isAtInstr = false)
    (h : s.step m limit = .running t) :
    t.callers.length < s.callers.length ∨
      t.callers = s.callers ∧ t.current.todo.length < s.current.todo.length := by
  cases htodo : s.current.todo with
  | nil =>
    rw [step, htodo] at h
    unfold fallOff at h
    dsimp only at h
    split at h
    · obtain ⟨caller, stack, hcallers, -⟩ := goesBack_of_leave h
      left
      rw [hcallers]
      exact Nat.lt_succ_self _
    · cases h
  | cons c rest =>
    right
    rw [htodo] at hnames
    cases c with
    | seq code =>
      cases code with
      | nil =>
        rw [step, htodo] at h
        cases h
        exact ⟨rfl, Nat.lt_succ_self _⟩
      | cons d code =>
        rw [isAtInstr, htodo] at hinstr
        cases hinstr
    | block name height =>
      rw [step, htodo] at h
      cases h
      exact ⟨rfl, Nat.lt_succ_self _⟩
    | loop name height body =>
      have hname : name ≠ [] := by
        rintro rfl
        exact hnames (List.mem_cons_self ..)
      rw [step, htodo] at h
      dsimp only at h
      rw [if_neg hname] at h
      cases h
      exact ⟨rfl, Nat.lt_succ_self _⟩

end State

namespace Validation

variable {m : Module} {limit : Nat}

/-- **A limited run of valid code ends.** An instruction brings the run closer to the limit; the
moves between two instructions are bounded by the callers and by what is left to do. -/
theorem ends_of_sound (hm : ValidModule m) (hlimit : 0 < limit) (s : State) (h : Sound m s) :
    ∃ fuel r, s.runFor m limit fuel = some r := by
  cases hstep : s.step m limit with
  | ended t failure => exact ⟨1, (t, failure), by rw [State.runFor, hstep]⟩
  | running t =>
    have hnext : Sound m t := by
      have hsafe := step_safe limit hm h
      rwa [hstep] at hsafe
    have hlower : Prod.Lex (· < ·) (Prod.Lex (· < ·) (· < ·))
        (limit - t.steps, t.callers.length, t.current.todo.length)
        (limit - s.steps, s.callers.length, s.current.todo.length) := by
      obtain ⟨-, -, hsteps⟩ := State.step_of_running hstep
      cases hinstr : s.isAtInstr with
      | true =>
        have hlt := State.steps_lt_of_running hlimit hinstr hstep
        rw [hinstr, Bool.toNat_true] at hsteps
        exact .left _ _ (by omega)
      | false =>
        rw [hinstr, Bool.toNat_false, Nat.add_zero] at hsteps
        obtain ⟨todo, hinFront, -, hready⟩ := h.current
        have hnames : [] ∉ labelsOf s.current.todo := by
          rw [hinFront, List.append_nil]
          exact hready.labels_ne_nil
        rw [hsteps]
        rcases State.lowers_of_step hnames hinstr hstep with hcallers | ⟨hcallers, htodo⟩
        · exact .right _ (.left _ _ hcallers)
        · rw [hcallers]
          exact .right _ (.right _ htodo)
    obtain ⟨fuel, r, hr⟩ := ends_of_sound hm hlimit t hnext
    exact ⟨fuel + 1, r, by rw [State.runFor, hstep]; exact hr⟩
termination_by (limit - s.steps, s.callers.length, s.current.todo.length)
decreasing_by exact hlower

end Validation

namespace Machine

variable {m : Module} {limit fuel : Nat} {room : Option Nat}

/-- How many instructions the first `fuel` moves of a run execute. -/
def executed (machine : Machine) (room : Option Nat) (fuel : Nat) : Nat :=
  ((machine.start? room).map (State.executed machine.code machine.limit fuel)).getD 0

/-- The first state of a run does not depend on the limit, and no step was made yet. -/
theorem start?_eq_some {s : State} (h : (ofModule m limit).start? room = some s) (limit' : Nat) :
    s.steps = 0 ∧ (ofModule m limit').start? room = some s := by
  obtain ⟨current, -, rfl⟩ := Option.map_eq_some_iff.mp h
  exact ⟨rfl, h⟩

/-- A run of a fresh machine fails at the start, or it starts and ends after some moves. -/
theorem run_eq_some {r : Run} (h : (ofModule m limit).run room fuel = some r) :
    (ofModule m limit).start? room = none ∧ r = ⟨ofModule m limit, [], some .missingPart⟩ ∨
      ∃ s t failure, (ofModule m limit).start? room = some s ∧
        s.runFor m limit fuel = some (t, failure) ∧
        r = ⟨⟨m, t.globals, t.steps, limit⟩, t.out.text, failure⟩ := by
  unfold run at h
  cases hstart : (ofModule m limit).start? room with
  | none =>
    rw [hstart] at h
    exact .inl ⟨rfl, (Option.some.inj h).symm⟩
  | some s =>
    rw [hstart] at h
    obtain ⟨⟨t, failure⟩, ht, rfl⟩ := Option.map_eq_some_iff.mp h
    exact .inr ⟨s, t, failure, rfl, ht, rfl⟩

/-- A run that starts is over when its moves are. -/
theorem run_of_runFor {s t : State} {failure : Option Failure}
    (hstart : (ofModule m limit).start? room = some s)
    (h : s.runFor m limit fuel = some (t, failure)) :
    (ofModule m limit).run room fuel =
      some ⟨⟨m, t.globals, t.steps, limit⟩, t.out.text, failure⟩ := by
  rw [run, hstart]
  show Option.map _ (s.runFor m limit fuel) = _
  rw [h]
  rfl

/-- What was printed first is the beginning of all that is printed. -/
theorem text_prefix {out out' : Output} (h : out.lines <:+ out'.lines) :
    out.text <+: out'.text := by
  obtain ⟨more, hmore⟩ := h
  refine ⟨more.reverse.flatMap fun line => line ++ "\n", ?_⟩
  rw [Output.text, Output.text, ← hmore, List.reverse_append, List.flatMap_append]

/-- A limited run of a module that was read ends. -/
theorem exists_run {wat : Text} (h : Module.parse wat = .ok m) (hlimit : 0 < limit)
    (room : Option Nat) : ∃ fuel r, (ofModule m limit).run room fuel = some r := by
  have hm := validModule_of_parse h
  obtain ⟨-, -, -, hbody⟩ := entry_of_parse h
  by_cases hparams : m.entry.params = []
  case neg => exact ⟨0, _, run_of_params hparams⟩
  by_cases hentry : m.entry ∈ m.functions ∨ m.entry.hasResult = false
  case neg =>
    obtain ⟨hmem, hresult⟩ := not_or.mp hentry
    exact ⟨2, _, run_of_body hparams (hbody hmem) (Bool.not_eq_false _ ▸ hresult)⟩
  have hruns : Validation.Runs m m.entry [] 0 m.entry.body m.entry.results := by
    by_cases hmem : m.entry ∈ m.functions
    · exact hm _ hmem
    · exact Validation.runs_nil (hbody hmem) (hentry.resolve_left hmem)
  obtain ⟨a, ha, hstart⟩ := start?_of_params hparams
  have hsound := Validation.sound_start hruns ha m.globals 0 (.empty room)
  obtain ⟨fuel, ⟨t, failure⟩, ht⟩ := Validation.ends_of_sound hm hlimit _ hsound
  exact ⟨fuel, _, run_of_runFor hstart ht⟩

end Machine

/-- **A limit only cuts runs off.** Whatever the receiver of the output takes, a run of a fresh
machine under a limit ends. If it is not the limit that ends it, the run under a higher limit or
under none ends after as many moves with the same failure or none, the same output, the same globals
and the same number of steps. If it is, exactly as many instructions were executed as the limit
allows, and one more was counted; the other run executes more instructions than that, in as many
moves already, and what it has printed when it ends starts with what was printed here. -/
theorem run_truncates {wat : Text} {m : Module} (h : Module.parse wat = .ok m) {n n' : Nat}
    (hn : 0 < n) (hmore : n < n' ∨ n' = 0) (room : Option Nat) :
    (∃ fuel r, (Machine.ofModule m n).run room fuel = some r) ∧
    ∀ fuel r, (Machine.ofModule m n).run room fuel = some r →
      (r.failure ≠ some .stepLimit →
        (Machine.ofModule m n').run room fuel =
          some { r with machine := { r.machine with limit := n' } }) ∧
      (r.failure = some .stepLimit →
        (Machine.ofModule m n).executed room fuel = n ∧ r.machine.steps = n + 1 ∧
        n < (Machine.ofModule m n').executed room fuel ∧
        ∀ fuel' r', (Machine.ofModule m n').run room fuel' = some r' →
          r.printed <+: r'.printed ∧ n < (Machine.ofModule m n').executed room fuel') := by
  refine ⟨Machine.exists_run h hn room, ?_⟩
  intro fuel r hrun
  have hle : n ≤ n' ∨ n' = 0 := hmore.imp_left Nat.le_of_lt
  rcases Machine.run_eq_some hrun with ⟨hstart, rfl⟩ | ⟨s, t, failure, hstart, ht, rfl⟩
  · -- The function takes arguments, so neither run starts.
    refine ⟨fun _ => ?_, nofun⟩
    have hstart' : (Machine.ofModule m n').start? room = none := hstart
    rw [Machine.run, hstart']
    rfl
  obtain ⟨hsteps, hstart'⟩ := Machine.start?_eq_some hstart n'
  refine ⟨fun hfailure => Machine.run_of_runFor hstart' (State.runFor_raise hn hle ht hfailure), ?_⟩
  intro hlimited
  replace hlimited : failure = some .stepLimit := hlimited
  rw [hlimited] at ht
  obtain ⟨k, u, hk, hmoves, hstops, hreached, hcounted, hsame⟩ :=
    State.stopped_of_runFor hn (by omega) ht
  have hmoves' : State.Moves m n' k s u := hmoves.raise hn hle
  have hgoes : ¬ u.Stops n' := by
    rintro ⟨-, hpos, hge⟩
    omega
  -- Both runs come to `u`; there the limit refuses the instruction that the other run executes.
  have hexecuted : ∀ fuel', k < fuel' → n < (Machine.ofModule m n').executed room fuel' := by
    intro fuel' hlt
    obtain ⟨rest, rfl⟩ : ∃ rest, fuel' = k + (rest + 1) := ⟨fuel' - k - 1, by omega⟩
    rw [Machine.executed, hstart']
    show n < State.executed m n' (k + (rest + 1)) s
    have hcount := State.executed_of_moves hmoves' (rest + 1)
    have hpos := State.executed_pos m rest hstops.1 hgoes
    omega
  refine ⟨?_, hcounted, hexecuted fuel hk, ?_⟩
  · rw [Machine.executed, hstart]
    show State.executed m n fuel s = n
    have hcount := State.executed_of_moves hmoves (fuel - k)
    rw [State.executed_of_stops hstops, Nat.add_sub_cancel' (Nat.le_of_lt hk)] at hcount
    omega
  · intro fuel' r' hrun'
    rcases Machine.run_eq_some hrun' with ⟨hnone, -⟩ | ⟨s', t', failure', hs', ht', rfl⟩
    · rw [hstart'] at hnone
      cases hnone
    rw [hstart'] at hs'
    cases hs'
    obtain ⟨hlt, hend⟩ := State.runFor_behind hmoves' ht'
    refine ⟨?_, hexecuted fuel' hlt⟩
    show t.out.text <+: t'.out.text
    rw [hsame]
    exact Machine.text_prefix (State.printed_of_runFor hend)

/-- A module that prints two lines with five instructions. -/
def twoLines : Text :=
  "(module (func $p (import \"imports\" \"print\")) (func (export \"e\") (result i32)
    (i32.const 7) (i32.const 2) (call $p) (i32.const 2) (call $p)))"

/-- Three instructions are enough for the first line. -/
theorem run_truncates_twoLines :
    ∃ m r, Module.parse twoLines = .ok m ∧ (Machine.ofModule m 3).run none 9 = some r ∧
      r.failure = some .stepLimit ∧ r.printed = "7\n" ∧ r.machine.steps = 4 ∧
      (Machine.ofModule m 3).executed none 9 = 3 ∧ 3 < (Machine.ofModule m 0).executed none 9 ∧
      ∀ fuel r', (Machine.ofModule m 0).run none fuel = some r' →
        "7\n" <+: r'.printed ∧ 3 < (Machine.ofModule m 0).executed none fuel := by
  have hparsed : (Module.parse twoLines).toOption.map (fun m =>
      (((Machine.ofModule m 3).run none 9).map (·.printed),
        ((Machine.ofModule m 0).run none 9).map (·.printed))) =
      some (some ("7\n" : Text), some ("7\n0\n" : Text)) := by
    decide +kernel
  obtain ⟨m, hm, hruns⟩ := toOption_map_eq_some.mp hparsed
  obtain ⟨hlimited, hunlimited⟩ := Prod.mk.inj hruns
  obtain ⟨r, hr, hprinted⟩ := Option.map_eq_some_iff.mp hlimited
  obtain ⟨-, hcuts⟩ :=
    run_truncates hm (show 0 < 3 by decide) (show 3 < 0 ∨ 0 = 0 from .inr rfl) none
  -- Without the limit there is a second line, so it was the limit that ended the run.
  have hfailure : r.failure = some .stepLimit := by
    by_contra hother
    rw [(hcuts 9 r hr).1 hother] at hunlimited
    have hsame : r.printed = "7\n0\n" := Option.some.inj hunlimited
    rw [hprinted] at hsame
    exact absurd hsame (by decide)
  obtain ⟨hexecuted, hsteps, hmore, hother⟩ := (hcuts 9 r hr).2 hfailure
  refine ⟨m, r, hm, hr, hfailure, hprinted, hsteps, hexecuted, hmore, ?_⟩
  intro fuel r' hr'
  rw [← hprinted]
  exact hother fuel r' hr'

end WatCompiler
