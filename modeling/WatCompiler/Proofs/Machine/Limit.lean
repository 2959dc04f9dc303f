import WatCompiler.Proofs.Machine.Frame

/-!
# The step limit

A limit does nothing but stop a run. `Stops limit s` says that the next move would be one
instruction too many; in every other state the machine moves as it does without a limit
(`step_of_not_stops`). So whatever moves are made under a limit can be made under a higher one
(`Moves.raise`).

Without a limit, a move counts one step if it executes an instruction, prints at most behind what
was printed, and is never refused because of its number (`step_counts`). All that is said here about
the number of steps and about the output of runs comes from that one lemma.
-/

namespace WatCompiler

/-- The failure that a move ends with, if it ends the run with one. -/
def Progress.failure? : Progress → Option Failure
  | .running _ => none
  | .ended _ failure => failure

namespace State

variable {m : Module} {limit limit' : Nat} {s t u : State}

/-! ## One move -/

/-- The next move executes an instruction. -/
def isAtInstr (s : State) : Bool :=
  match s.current.todo with
  | .seq (_ :: _) :: _ => true
  | _ => false

/-- The next move would execute more instructions than the limit allows. -/
def Stops (limit : Nat) (s : State) : Prop := s.isAtInstr = true ∧ 0 < limit ∧ limit ≤ s.steps

instance (limit : Nat) (s : State) : Decidable (s.Stops limit) :=
  inferInstanceAs (Decidable (_ ∧ _ ∧ _))

/-- A higher limit, or none, stops later. -/
theorem Stops.lower (hlimit : 0 < limit) (hle : limit ≤ limit' ∨ limit' = 0)
    (h : s.Stops limit') : s.Stops limit := by
  obtain ⟨hinstr, hpos, hsteps⟩ := h
  exact ⟨hinstr, hlimit, by omega⟩

/-- **Where a limit does not stop the run it does nothing.** -/
theorem step_of_not_stops (h : ¬ s.Stops limit) : s.step m limit = s.step m 0 := by
  unfold step
  split
  case h_3 d code rest htodo =>
    have hinstr : s.isAtInstr = true := by rw [isAtInstr, htodo]
    have hlimit : ¬ (0 < limit ∧ limit < s.steps + 1) := fun hboth =>
      h ⟨hinstr, hboth.1, Nat.le_of_lt_succ hboth.2⟩
    dsimp only
    rw [if_neg hlimit, if_neg fun hboth => Nat.lt_irrefl 0 hboth.1]
  all_goals rfl

/-- Where it stops the run, the instruction has been counted, and nothing else has changed. -/
theorem step_of_stops (m : Module) (h : s.Stops limit) :
    ∃ t, s.step m limit = .ended t (some .stepLimit) ∧ t.steps = s.steps + 1 ∧ t.out = s.out ∧
      t.globals = s.globals := by
  obtain ⟨hinstr, hpos, hsteps⟩ := h
  unfold isAtInstr at hinstr
  split at hinstr
  · next htodo =>
    unfold step
    rw [htodo]
    dsimp only
    rw [if_pos ⟨hpos, Nat.lt_succ_of_le hsteps⟩]
    exact ⟨_, rfl, rfl, rfl, rfl⟩
  · cases hinstr

/-- From `s` on no step was counted, the lines that were printed are still there, and if the run has
failed, it was not because of the limit. -/
structure Adds (s : State) (p : Progress) : Prop where
  steps : p.state.steps = s.steps
  printed : s.out.lines <:+ p.state.out.lines
  failure : p.failure? ≠ some .stepLimit

/-- A state that differs neither in steps nor in output. -/
theorem Adds.running (hsteps : t.steps = s.steps) (hout : t.out = s.out) : s.Adds (.running t) :=
  ⟨hsteps, by rw [← hout]; exact List.suffix_refl _, nofun⟩

theorem Adds.fails {failure : Failure} (hsteps : t.steps = s.steps) (hout : t.out = s.out)
    (hfailure : failure ≠ .stepLimit) : s.Adds (t.fail failure) :=
  ⟨hsteps, by rw [← hout]; exact List.suffix_refl _, fun h => hfailure (Option.some.inj h)⟩

theorem Adds.of_eq {p : Progress} (h : t.Adds p) (hsteps : t.steps = s.steps)
    (hout : t.out = s.out) :
    s.Adds p :=
  ⟨h.steps.trans hsteps, hout ▸ h.printed, h.failure⟩

theorem adds_pop {next : Int32 → State → Progress}
    (hnext : ∀ v u, u.steps = s.steps → u.out = s.out → s.Adds (next v u)) :
    s.Adds (s.pop next) := by
  unfold pop
  split
  · exact .fails rfl rfl nofun
  · exact hnext _ _ rfl rfl

theorem adds_giveBack (s : State) (v : Int32) : s.Adds (s.giveBack v) := by
  unfold giveBack
  split
  · exact ⟨rfl, List.suffix_refl _, nofun⟩
  · exact .running rfl rfl

theorem adds_leave (s : State) : s.Adds s.leave := by
  unfold leave
  split
  · exact adds_pop fun v u hsteps hout => (adds_giveBack u v).of_eq hsteps hout
  · exact adds_giveBack s 0

theorem adds_fallOff (s : State) : s.Adds s.fallOff := by
  unfold fallOff
  dsimp only
  split
  · exact adds_leave s
  · exact .fails rfl rfl nofun

theorem adds_branch (s : State) (label : Text) : s.Adds (s.branch label) := by
  unfold branch
  split
  · exact .running rfl rfl
  · exact .running rfl rfl

theorem adds_ret (s : State) : s.Adds s.ret := by
  unfold ret
  dsimp only
  split
  · exact (adds_leave _).of_eq rfl rfl
  · exact .running rfl rfl

/-- Writing puts a line behind those that were written. -/
theorem lines_of_write? {out out' : Output} {line : Text} (h : out.write? line = some out') :
    out'.lines = line :: out.lines := by
  unfold Output.write? at h
  split at h <;> cases h <;> rfl

/-- A function of the host prints a line or nothing, and does not count steps. -/
theorem lines_of_hostCall {host : Host} {args : List Int32} {out out' : Output} {v : Int32}
    (h : host.call args out = .ok (v, out')) : out.lines <:+ out'.lines := by
  unfold Host.call at h
  split at h
  case h_1 =>
    split at h
    · cases h
    · next hwrite =>
      cases h
      rw [lines_of_write? hwrite]
      exact List.suffix_cons _ _
  case h_6 => cases h
  all_goals
    cases h
    exact List.suffix_refl _

theorem ne_stepLimit_of_hostCall {host : Host} {args : List Int32} {out : Output}
    {failure : Failure}
    (h : host.call args out = .error failure) : failure ≠ .stepLimit := by
  unfold Host.call at h
  split at h
  case h_1 =>
    split at h
    · cases h
      exact nofun
    · cases h
  case h_6 =>
    cases h
    exact nofun
  all_goals cases h

theorem adds_call (m : Module) (s : State) (name : Text) : s.Adds (s.call m name) := by
  unfold call
  dsimp only
  split
  · exact .fails rfl rfl nofun
  split
  · split
    · next hcall => exact .fails rfl rfl (ne_stepLimit_of_hostCall hcall)
    · next hcall => exact ⟨rfl, lines_of_hostCall hcall, nofun⟩
  · split
    · exact .fails rfl rfl nofun
    · exact .running rfl rfl

theorem adds_execute (m : Module) (s : State) (d : Datum) : s.Adds (s.execute m d) := by
  unfold execute
  split
  case h_1 | h_3 | h_5 | h_12 | h_14 => exact .running rfl rfl
  case h_2 | h_11 | h_13 => exact .fails rfl rfl (fun h => by cases h)
  case h_4 | h_6 => exact adds_pop fun v u hsteps hout => .running hsteps hout
  case h_7 name _ => exact adds_call m s name
  case h_8 => exact adds_ret s
  case h_9 label _ => exact adds_branch s label
  case h_10 label _ =>
    refine adds_pop fun v u hsteps hout => ?_
    split
    · exact .running hsteps hout
    · exact (adds_branch u label).of_eq hsteps hout
  case h_15 =>
    refine adds_pop fun v u hsteps hout => ?_
    split
    · exact .running hsteps hout
    · split
      · exact .fails hsteps hout (fun h => by cases h)
      · exact .running hsteps hout
  case h_16 =>
    refine adds_pop fun rhs u hsteps hout => ?_
    refine (adds_pop (s := u) fun lhs w hsteps' hout' => ?_).of_eq hsteps hout
    split
    · exact .fails hsteps' hout' (fun h => by cases h)
    · exact .running hsteps' hout'
  case h_17 =>
    refine adds_pop fun rhs u hsteps hout => ?_
    refine (adds_pop (s := u) fun lhs w hsteps' hout' => ?_).of_eq hsteps hout
    exact .fails hsteps' hout' (fun h => by cases h)

/-- **What a move counts and prints.** Without a limit the number of steps grows by one with every
instruction, and the output only grows. -/
theorem step_counts (m : Module) (s : State) :
    (s.step m 0).state.steps = s.steps + s.isAtInstr.toNat ∧
      s.out.lines <:+ (s.step m 0).state.out.lines ∧ (s.step m 0).failure? ≠ some .stepLimit := by
  cases hinstr : s.isAtInstr with
  | true =>
    unfold isAtInstr at hinstr
    split at hinstr
    · next d code rest htodo =>
      unfold step
      rw [htodo]
      dsimp only
      rw [if_neg fun hboth => Nat.lt_irrefl 0 hboth.1]
      obtain ⟨hsteps, hprinted, hfailure⟩ := adds_execute m
        { s.goOn (.seq code :: rest) s.current.stack with steps := s.steps + 1 } d
      exact ⟨hsteps, hprinted, hfailure⟩
    · cases hinstr
  | false =>
    have hadds : s.Adds (s.step m 0) := by
      unfold step
      split
      case h_1 => exact adds_fallOff s
      case h_2 => exact .running rfl rfl
      case h_3 htodo =>
        rw [isAtInstr, htodo] at hinstr
        cases hinstr
      case h_4 => exact .running rfl rfl
      case h_5 =>
        dsimp only
        split
        · exact .running rfl rfl
        · exact .running rfl rfl
    exact ⟨hadds.steps, hadds.printed, hadds.failure⟩

/-- A move that goes on was not stopped, so it is one of the machine without a limit. -/
theorem step_of_running (h : s.step m limit = .running t) :
    ¬ s.Stops limit ∧ s.step m 0 = .running t ∧ t.steps = s.steps + s.isAtInstr.toNat := by
  have hgoes : ¬ s.Stops limit := by
    intro hstops
    obtain ⟨t', ht', -⟩ := step_of_stops m hstops
    rw [h] at ht'
    cases ht'
  have hstep : s.step m 0 = .running t := (step_of_not_stops hgoes).symm.trans h
  have hcounts := (step_counts m s).1
  rw [hstep] at hcounts
  exact ⟨hgoes, hstep, hcounts⟩

/-- An instruction is executed only while the limit has not been reached. -/
theorem steps_lt_of_running (hlimit : 0 < limit) (hinstr : s.isAtInstr = true)
    (h : s.step m limit = .running t) : s.steps < limit :=
  Nat.lt_of_not_le fun hle => (step_of_running h).1 ⟨hinstr, hlimit, hle⟩

/-- A move ends the run with the failure of the limit only where the limit stops it. -/
theorem stops_iff_of_step {failure : Option Failure} (h : s.step m limit = .ended t failure) :
    s.Stops limit ↔ failure = some .stepLimit := by
  constructor
  · intro hstops
    obtain ⟨t', ht', -⟩ := step_of_stops m hstops
    rw [h] at ht'
    cases ht'
    rfl
  · intro hfailure
    by_contra hgoes
    have hnever := (step_counts m s).2.2
    rw [← step_of_not_stops hgoes, h] at hnever
    exact hnever hfailure

/-- What was printed before a move is still there after it. -/
theorem printed_of_step (m : Module) (limit : Nat) (s : State) :
    s.out.lines <:+ (s.step m limit).state.out.lines := by
  by_cases hstops : s.Stops limit
  · obtain ⟨t, ht, -, hout, -⟩ := step_of_stops m hstops
    rw [ht, ← hout]
    exact List.suffix_refl _
  · rw [step_of_not_stops hstops]
    exact (step_counts m s).2.1

/-! ## Runs -/

/-- A run that goes on has not made more steps than the limit allows. -/
theorem steps_le_of_moves (hlimit : 0 < limit) {n : Nat} (hs : s.steps ≤ limit)
    (h : Moves m limit n s t) : t.steps ≤ limit := by
  refine Moves.keeps (P := fun u => u.steps ≤ limit) ?_ hs h
  intro u v hu hstep
  obtain ⟨-, -, hsteps⟩ := step_of_running hstep
  cases hinstr : u.isAtInstr with
  | false =>
    rw [hinstr, Bool.toNat_false] at hsteps
    omega
  | true =>
    rw [hinstr, Bool.toNat_true] at hsteps
    have hlt := steps_lt_of_running hlimit hinstr hstep
    omega

/-- Moves under a limit can be made under a higher one, or under none. -/
theorem Moves.raise (hlimit : 0 < limit) (hle : limit ≤ limit' ∨ limit' = 0) {n : Nat}
    (h : Moves m limit n s t) : Moves m limit' n s t := by
  induction n generalizing s with
  | zero => exact h
  | succ n ih =>
    obtain ⟨u, hu, hrest⟩ := h
    obtain ⟨hgoes, hstep, -⟩ := step_of_running hu
    refine ⟨u, ?_, ih hrest⟩
    rw [step_of_not_stops fun hstops => hgoes (hstops.lower hlimit hle)]
    exact hstep

theorem printed_of_runFor {fuel : Nat} {failure : Option Failure}
    (h : s.runFor m limit fuel = some (t, failure)) : s.out.lines <:+ t.out.lines := by
  induction fuel generalizing s with
  | zero => cases h
  | succ fuel ih =>
    have hprinted := printed_of_step m limit s
    rw [runFor] at h
    cases hstep : s.step m limit with
    | running u =>
      rw [hstep] at h hprinted
      exact hprinted.trans (ih h)
    | ended u found =>
      rw [hstep] at h hprinted
      cases h
      exact hprinted

/-- **A run that the limit does not stop** ends in the same way under a higher limit. -/
theorem runFor_raise (hlimit : 0 < limit) (hle : limit ≤ limit' ∨ limit' = 0) {fuel : Nat}
    {failure : Option Failure} (h : s.runFor m limit fuel = some (t, failure))
    (hfailure : failure ≠ some .stepLimit) : s.runFor m limit' fuel = some (t, failure) := by
  obtain ⟨n, u, hn, hmoves, hend⟩ := runFor_eq_some_iff.mp h
  have hgoes : ¬ u.Stops limit := fun hstops => hfailure ((stops_iff_of_step hend).mp hstops)
  refine runFor_eq_some_iff.mpr ⟨n, u, hn, hmoves.raise hlimit hle, ?_⟩
  rw [step_of_not_stops fun hstops => hgoes (hstops.lower hlimit hle), ← step_of_not_stops hgoes]
  exact hend

/-- **A run that the limit stops** has made as many steps as the limit allows and is about to
execute one more instruction. Without the limit it comes to the same point. -/
theorem stopped_of_runFor (hlimit : 0 < limit) (hs : s.steps ≤ limit) {fuel : Nat}
    (h : s.runFor m limit fuel = some (t, some .stepLimit)) :
    ∃ n u, n < fuel ∧ Moves m limit n s u ∧ u.Stops limit ∧ u.steps = limit ∧
      t.steps = limit + 1 ∧ t.out = u.out := by
  obtain ⟨n, u, hn, hmoves, hend⟩ := runFor_eq_some_iff.mp h
  have hstops : u.Stops limit := (stops_iff_of_step hend).mpr rfl
  obtain ⟨t', ht', hsteps, hout, -⟩ := step_of_stops m hstops
  rw [hend] at ht'
  cases ht'
  -- The counter cannot be past the limit, since the moves before were not stopped.
  have hreached : u.steps = limit := Nat.le_antisymm (steps_le_of_moves hlimit hs hmoves) hstops.2.2
  exact ⟨n, u, hn, hmoves, hstops, hreached, by rw [hsteps, hreached], hout⟩

/-! ## Instructions that were executed -/

/-- How many instructions the first `fuel` moves of a run execute. An instruction that the limit
refuses is not executed. -/
def executed (m : Module) (limit : Nat) : Nat → State → Nat
  | 0, _ => 0
  | fuel + 1, s =>
    let rest :=
      match s.step m limit with
      | .running t => executed m limit fuel t
      | .ended _ _ => 0
    if s.isAtInstr = true ∧ ¬ s.Stops limit then rest + 1 else rest

theorem executed_of_moves {n : Nat} (h : Moves m limit n s t) (fuel : Nat) :
    executed m limit (n + fuel) s + s.steps = executed m limit fuel t + t.steps := by
  induction n generalizing s with
  | zero =>
    cases h
    rw [Nat.zero_add]
  | succ n ih =>
    obtain ⟨u, hu, hrest⟩ := h
    obtain ⟨hgoes, -, hsteps⟩ := step_of_running hu
    have hih := ih hrest
    rw [Nat.succ_add, executed, hu]
    cases hinstr : s.isAtInstr with
    | false =>
      rw [hinstr, Bool.toNat_false] at hsteps
      rw [if_neg fun hboth => Bool.false_ne_true hboth.1]
      show executed m limit (n + fuel) u + s.steps = _
      omega
    | true =>
      rw [hinstr, Bool.toNat_true] at hsteps
      rw [if_pos ⟨rfl, hgoes⟩]
      show executed m limit (n + fuel) u + 1 + s.steps = _
      omega

/-- The limit refuses to execute the instruction at which it stops. -/
theorem executed_of_stops (h : s.Stops limit) (fuel : Nat) : executed m limit fuel s = 0 := by
  cases fuel with
  | zero => rfl
  | succ fuel =>
    obtain ⟨t, ht, -⟩ := step_of_stops m h
    rw [executed, ht]
    exact if_neg fun hboth => hboth.2 h

/-- An instruction at which the limit does not stop is executed, also if it fails. -/
theorem executed_pos (m : Module) (fuel : Nat) (hinstr : s.isAtInstr = true)
    (hgoes : ¬ s.Stops limit) :
    0 < executed m limit (fuel + 1) s := by
  rw [executed, if_pos ⟨hinstr, hgoes⟩]
  exact Nat.succ_pos _

end State

end WatCompiler
