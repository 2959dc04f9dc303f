import WatCompiler.Machine
import WatCompiler.Proofs.Basic

/-!
# Moves of the machine

A run is a number of moves, each of which goes on, and then one that ends it. `Moves n s t` says
that `n` moves lead from `s` to `t`. The bounded run `runFor` is described by it in both directions:
it is still going on after `n` moves if `n` moves are possible (`runFor_eq_none_iff`), and it ends
with the answer of the move after them (`runFor_eq_some_iff`).
-/

namespace WatCompiler.State

variable {m : Module} {limit : Nat}

/-- `n` moves lead from one state to another. -/
def Moves (m : Module) (limit : Nat) : Nat → State → State → Prop
  | 0, s, t => s = t
  | n + 1, s, t => ∃ u, s.step m limit = .running u ∧ Moves m limit n u t

/-- Some number of moves leads from one state to another. -/
def Reaches (m : Module) (limit : Nat) (s t : State) : Prop := ∃ n, Moves m limit n s t

theorem Moves.trans {n k : Nat} {s t u : State} (hs : Moves m limit n s t)
    (ht : Moves m limit k t u) : Moves m limit (n + k) s u := by
  induction n generalizing s with
  | zero =>
    cases hs
    rwa [Nat.zero_add]
  | succ n ih =>
    obtain ⟨v, hv, hrest⟩ := hs
    rw [Nat.succ_add]
    exact ⟨v, hv, ih hrest⟩

theorem Moves.single {s t : State} (h : s.step m limit = .running t) : Moves m limit 1 s t :=
  ⟨t, h, rfl⟩

/-- The first of a number of moves. -/
theorem Moves.of_add {n k : Nat} {s u : State} (h : Moves m limit (n + k) s u) :
    ∃ t, Moves m limit n s t ∧ Moves m limit k t u := by
  induction n generalizing s with
  | zero => exact ⟨s, rfl, by rwa [Nat.zero_add] at h⟩
  | succ n ih =>
    rw [Nat.succ_add] at h
    obtain ⟨v, hv, hrest⟩ := h
    obtain ⟨t, ht, hu⟩ := ih hrest
    exact ⟨t, ⟨v, hv, ht⟩, hu⟩

/-- What every move keeps, every number of moves keeps. -/
theorem Moves.keeps {P : State → Prop}
    (hstep : ∀ s t, P s → s.step m limit = .running t → P t) {n : Nat} {s t : State} (hs : P s)
    (h : Moves m limit n s t) : P t := by
  induction n generalizing s with
  | zero =>
    cases h
    exact hs
  | succ n ih =>
    obtain ⟨u, hu, hrest⟩ := h
    exact ih (hstep s u hs hu) hrest

/-! ## Bounded runs -/

theorem runFor_of_moves {n : Nat} {s t : State} (h : Moves m limit n s t) (fuel : Nat) :
    s.runFor m limit (n + fuel) = t.runFor m limit fuel := by
  induction n generalizing s with
  | zero =>
    cases h
    rw [Nat.zero_add]
  | succ n ih =>
    obtain ⟨u, hu, hrest⟩ := h
    rw [Nat.succ_add, runFor, hu]
    exact ih hrest

theorem runFor_eq_none_iff {n : Nat} {s : State} :
    s.runFor m limit n = none ↔ ∃ t, Moves m limit n s t := by
  induction n generalizing s with
  | zero => exact ⟨fun _ => ⟨s, rfl⟩, fun _ => rfl⟩
  | succ n ih =>
    rw [runFor]
    cases hs : s.step m limit with
    | running u =>
      rw [ih]
      constructor
      · rintro ⟨t, ht⟩
        exact ⟨t, u, hs, ht⟩
      · rintro ⟨t, v, hv, ht⟩
        rw [hs] at hv
        cases hv
        exact ⟨t, ht⟩
    | ended u failure =>
      refine ⟨fun h => (nomatch h), ?_⟩
      rintro ⟨t, v, hv, -⟩
      rw [hs] at hv
      cases hv

theorem runFor_eq_some_iff {fuel : Nat} {s t : State} {failure : Option Failure} :
    s.runFor m limit fuel = some (t, failure) ↔
      ∃ n u, n < fuel ∧ Moves m limit n s u ∧ u.step m limit = .ended t failure := by
  constructor
  · intro h
    induction fuel generalizing s with
    | zero => cases h
    | succ fuel ih =>
      rw [runFor] at h
      cases hs : s.step m limit with
      | running u =>
        rw [hs] at h
        obtain ⟨n, v, hn, hv, hend⟩ := ih h
        exact ⟨n + 1, v, by omega, ⟨u, hs, hv⟩, hend⟩
      | ended u found =>
        rw [hs] at h
        cases h
        exact ⟨0, s, by omega, rfl, hs⟩
  · rintro ⟨n, u, hn, hu, hend⟩
    obtain ⟨k, rfl⟩ : ∃ k, fuel = n + (k + 1) := ⟨fuel - n - 1, by omega⟩
    rw [runFor_of_moves hu, runFor, hend]

/-- A run that ends goes through all the states that its moves lead to. -/
theorem runFor_behind {n fuel : Nat} {s t : State} {r : State × Option Failure}
    (hmoves : Moves m limit n s t) (h : s.runFor m limit fuel = some r) :
    n < fuel ∧ t.runFor m limit (fuel - n) = some r := by
  have hlt : n < fuel := by
    by_contra hge
    obtain ⟨u, hu, -⟩ := Moves.of_add (n := fuel) (k := n - fuel)
      (by rwa [Nat.add_sub_cancel' (Nat.le_of_not_lt hge)])
    rw [runFor_eq_none_iff.mpr ⟨u, hu⟩] at h
    cases h
  refine ⟨hlt, ?_⟩
  rw [← runFor_of_moves hmoves, Nat.add_sub_cancel' (Nat.le_of_lt hlt)]
  exact h

/-- More moves do not change how a run ends. -/
theorem runFor_mono {fuel more : Nat} {s : State} {r : State × Option Failure}
    (h : s.runFor m limit fuel = some r) (hle : fuel ≤ more) : s.runFor m limit more = some r := by
  obtain ⟨t, failure⟩ := r
  obtain ⟨k, u, hk, hmoves, hend⟩ := runFor_eq_some_iff.mp h
  exact runFor_eq_some_iff.mpr ⟨k, u, Nat.lt_of_lt_of_le hk hle, hmoves, hend⟩

/-- A run ends in only one way. -/
theorem runFor_unique {fuel fuel' : Nat} {s : State}
    {r r' : State × Option Failure} (h : s.runFor m limit fuel = some r)
    (h' : s.runFor m limit fuel' = some r') : r = r' := by
  have hmax := runFor_mono h (Nat.le_max_left fuel fuel')
  rw [runFor_mono h' (Nat.le_max_right fuel fuel')] at hmax
  exact (Option.some.inj hmax).symm

end WatCompiler.State
