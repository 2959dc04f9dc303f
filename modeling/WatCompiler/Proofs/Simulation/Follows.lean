import WatCompiler.Proofs.Evaluation
import WatCompiler.Proofs.Machine.Moves
import WatCompiler.Wat.OfProgram

/-!
# The machine follows a computation

`Follows m n x w s post` says that the machine, from the state `s`, does what the computation `x`
does from the world `w`. If `x` gives a value, the machine gets to a state for which `post` holds;
if it traps, the machine traps in the same way with the same changes to the world; and if `x` is not
over, the machine can still make `n` moves. The rules below put such statements together in the same
way as computations are put together, so that nothing else has to count moves.
-/

namespace WatCompiler

variable {α β : Type}

/-- A computation and what follows it. -/
theorem Eval.bind_apply (x : Eval α) (f : α → Eval β) (w : World) :
    (x >>= f) w = match x w with
      | none => none
      | some (.ok a, w') => f a w'
      | some (.error cause, w') => some (.error cause, w') := by
  show Option.bind (x w) (fun r => ExceptT.bindCont f r.1 r.2) = _
  rcases x w with _ | ⟨_ | _, _⟩ <;> rfl

namespace Code

/-- The globals and the output of the machine are those of the program. -/
structure Shows (w : World) (s : State) : Prop where
  globals : s.globals = w.globals.map fun entry => (identifier entry.1, entry.2)
  out : s.out = ⟨w.printed.reverse, none⟩

/-- From `s`, the machine does what the computation does from `w`. -/
def Follows (m : Module) (n : Nat) (x : Eval α) (w : World) (s : State)
    (post : α → World → State → Prop) : Prop :=
  match x w with
  | none => ∃ t, State.Moves m 0 n s t
  | some (.ok a, w') => ∃ t, State.Reaches m 0 s t ∧ post a w' t
  | some (.error cause, w') =>
    ∃ u t, State.Reaches m 0 s u ∧ u.step m 0 = .ended t (some (.trap cause)) ∧ Shows w' t

variable {m : Module} {n : Nat} {x : Eval α} {w : World} {s t : State}
  {post : α → World → State → Prop}

theorem Follows.pure {a : α} (h : post a w s) : Follows m n (pure a) w s post :=
  ⟨s, ⟨0, rfl⟩, h⟩

/-- Nothing is asked of a computation that is allowed nothing. -/
theorem Follows.unfinished : Follows m 0 (Eval.unfinished : Eval α) w s post := ⟨s, rfl⟩

/-- Both stop for the same cause. -/
theorem Follows.trap {cause : Trap} {y : Eval α} (hy : y w = some (.error cause, w))
    (h : s.step m 0 = .ended t (some (.trap cause))) (ht : Shows w t) :
    Follows m n y w s post := by
  rw [Follows, hy]
  exact ⟨s, t, ⟨0, rfl⟩, h, ht⟩

theorem moves_of_le {k : Nat} (hk : k ≤ n) (h : ∃ u, State.Moves m 0 n s u) :
    ∃ u, State.Moves m 0 k s u := by
  obtain ⟨u, hu⟩ := h
  obtain ⟨d, rfl⟩ := Nat.exists_eq_add_of_le hk
  obtain ⟨v, hv, -⟩ := hu.of_add
  exact ⟨v, hv⟩

theorem reaches_trans {u : State} (hst : State.Reaches m 0 s t) (htu : State.Reaches m 0 t u) :
    State.Reaches m 0 s u := by
  obtain ⟨k, hk⟩ := hst
  obtain ⟨l, hl⟩ := htu
  exact ⟨k + l, hk.trans hl⟩

/-- What can be followed for more moves can be followed for fewer. -/
theorem Follows.of_le {k : Nat} (hk : k ≤ n) (h : Follows m n x w s post) :
    Follows m k x w s post := by
  unfold Follows at h ⊢
  split at h
  · exact moves_of_le hk h
  · exact h
  · exact h

/-- Moves of the machine after the computation. -/
theorem Follows.advance {post' : α → World → State → Prop} (h : Follows m n x w s post)
    (hpost : ∀ a w' t, post a w' t → ∃ u, State.Reaches m 0 t u ∧ post' a w' u) :
    Follows m n x w s post' := by
  unfold Follows at h ⊢
  split at h
  · exact h
  · obtain ⟨t, hst, ht⟩ := h
    obtain ⟨u, htu, hu⟩ := hpost _ _ t ht
    exact ⟨u, reaches_trans hst htu, hu⟩
  · exact h

/-- A move of the machine that the computation knows nothing of. It pays for one more call or
round. -/
theorem Follows.of_step_succ (hs : s.step m 0 = .running t) (h : Follows m n x w t post) :
    Follows m (n + 1) x w s post := by
  have hreach : State.Reaches m 0 s t := ⟨1, .single hs⟩
  unfold Follows at h ⊢
  split at h
  · obtain ⟨u, hu⟩ := h
    exact ⟨u, t, hs, hu⟩
  · obtain ⟨u, htu, hu⟩ := h
    exact ⟨u, reaches_trans hreach htu, hu⟩
  · obtain ⟨u, v, htu, hv⟩ := h
    exact ⟨u, v, reaches_trans hreach htu, hv⟩

theorem Follows.of_step (hs : s.step m 0 = .running t) (h : Follows m n x w t post) :
    Follows m n x w s post :=
  (h.of_step_succ hs).of_le (Nat.le_succ n)

/-- Moves of the machine alone may come first. -/
theorem Follows.of_reaches (hs : State.Reaches m 0 s t) (h : Follows m n x w t post) :
    Follows m n x w s post := by
  obtain ⟨k, hk⟩ := hs
  induction k generalizing s with
  | zero =>
    cases hk
    exact h
  | succ k ih =>
    obtain ⟨u, hu, hrest⟩ := hk
    exact (ih hrest).of_step hu

/-- One move for a computation that is over at once. -/
theorem Follows.of_step_done {a : α} {w' : World} (hx : x w = some (.ok a, w'))
    (hs : s.step m 0 = .running t) (h : post a w' t) : Follows m n x w s post := by
  rw [Follows, hx]
  exact ⟨t, ⟨1, .single hs⟩, h⟩

/-- What follows a computation is followed from where the machine got with it. -/
theorem Follows.bind {f : α → Eval β} {post' : β → World → State → Prop}
    (h : Follows m n x w s post)
    (hf : ∀ a w' t, post a w' t → Follows m n (f a) w' t post') :
    Follows m n (x >>= f) w s post' := by
  unfold Follows at h ⊢
  rw [Eval.bind_apply]
  rcases hx : x w with _ | ⟨cause | a, w'⟩
  · rw [hx] at h
    exact h
  · rw [hx] at h
    exact h
  · rw [hx] at h
    obtain ⟨t, hst, ht⟩ := h
    exact (hf a w' t ht).of_reaches hst

end Code

end WatCompiler
