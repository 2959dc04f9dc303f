import Mathlib.Data.List.Infix
import WatCompiler.Machine.OperandStack

/-!
# Operands that are left alone

What the operations of a stack do to its operands, and that operands at the bottom stay there as
long as nothing is taken from them.
-/

namespace WatCompiler.OperandStack

/-- With enough operands, a stack gives as many as are asked for. -/
theorem popMany?_eq_some {s : OperandStack} {n : Nat} (h : n ≤ s.height) (above : List Int32) :
    ∃ t, s.popMany? above n = some ((s.live.take n).reverse ++ above, t) ∧
      t.live = s.live.drop n := by
  induction n generalizing s above with
  | zero => exact ⟨s, by simp [popMany?], by simp⟩
  | succ n ih =>
    obtain ⟨live, spent⟩ := s
    cases live with
    | nil => simp [height] at h
    | cons value rest =>
      have hn : n ≤ height ⟨rest, value :: spent⟩ := by
        simp only [height, List.length_cons] at h ⊢
        omega
      obtain ⟨t, ht, hlive⟩ := ih hn (value :: above)
      refine ⟨t, ?_, by simpa using hlive⟩
      rw [popMany?, show pop? ⟨value :: rest, spent⟩ =
        some (value, ⟨rest, value :: spent⟩) from rfl]
      simp [ht]

/-- Operands leave a stack in the order in which they were put there. -/
theorem popMany?_reverse {s : OperandStack} {values live : List Int32}
    (h : s.live = values.reverse ++ live) :
    ∃ t, s.popMany? [] values.length = some (values, t) ∧ t.live = live := by
  have hheight : values.length ≤ s.height := by
    rw [height, h, List.length_append, List.length_reverse]
    exact Nat.le_add_right _ _
  obtain ⟨t, hpop, hlive⟩ := popMany?_eq_some hheight []
  rw [h, ← List.length_reverse, List.take_left, List.reverse_reverse, List.append_nil,
    List.length_reverse] at hpop
  rw [h, ← List.length_reverse, List.drop_left] at hlive
  exact ⟨t, hpop, hlive⟩

/-- Setting back a stack to a lower height drops what is above it. -/
theorem live_resize {s : OperandStack} {n : Nat} (h : n ≤ s.height) :
    (s.resize n).live = s.live.drop (s.height - n) := by
  simp only [height] at h
  simp [resize, height, Nat.sub_eq_zero_of_le h]

theorem height_resize {s : OperandStack} {n : Nat} (h : n ≤ s.height) :
    (s.resize n).height = n := by
  rw [height, live_resize h, List.length_drop]
  simp only [height] at h ⊢
  omega

/-- The lowest operands stay when operands above them are dropped. -/
theorem suffix_drop {floor live : List Int32} {n : Nat} (h : floor <:+ live)
    (hn : floor.length + n ≤ live.length) : floor <:+ live.drop n :=
  List.suffix_of_suffix_length_le h (List.drop_suffix n live) (by rw [List.length_drop]; omega)

end WatCompiler.OperandStack
