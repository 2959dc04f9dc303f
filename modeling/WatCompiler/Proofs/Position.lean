import Mathlib.Data.List.Basic
import WatCompiler.Position

/-!
# Positions of offsets

The search in the line index finds the last line that starts at or before an offset
(`lt_search_iff`, `exists_isLine`). So every offset has a known position (`isKnown_position`), and
positions, compared by line and then by column, come in the order of the offsets (`position_lt`).

A machine integer has the position of the number that it stands for (`position?_eq_some`), unless it
is negative or the greatest one (`position?_eq_none_iff`).
-/

namespace WatCompiler

namespace Position

/-- Whether a position comes before another one or is the same: lines first, then columns. -/
def atOrBefore (p q : Position) : Bool :=
  p.line < q.line || (p.line = q.line && p.column ≤ q.column)

theorem atOrBefore_iff {p q : Position} :
    p.atOrBefore q = true ↔ p.line < q.line ∨ p.line = q.line ∧ p.column ≤ q.column := by
  simp only [atOrBefore, Bool.or_eq_true, Bool.and_eq_true, decide_eq_true_eq]

theorem atOrBefore_trans {p q r : Position} (h : p.atOrBefore q = true)
    (h' : q.atOrBefore r = true) : p.atOrBefore r = true := by
  rw [atOrBefore_iff] at h h' ⊢
  omega

theorem atOrBefore_total (p q : Position) : (p.atOrBefore q || q.atOrBefore p) = true := by
  rw [Bool.or_eq_true, atOrBefore_iff, atOrBefore_iff]
  omega

theorem atOrBefore_antisymm {p q : Position} (h : p.atOrBefore q = true)
    (h' : q.atOrBefore p = true) : p = q := by
  rw [atOrBefore_iff] at h h'
  obtain ⟨line, column⟩ := p
  obtain ⟨line', column'⟩ := q
  dsimp only at h h'
  rw [Position.mk.injEq]
  omega

end Position

namespace LineIndex

variable (lines : LineIndex)

theorem starts_le {i j : Nat} (hij : i ≤ j) (hj : j < lines.starts.size) :
    lines.starts[i] ≤ lines.starts[j] := by
  rcases Nat.lt_or_eq_of_le hij with hlt | rfl
  · have hlist : j < lines.starts.toList.length := by simpa
    exact Nat.le_of_lt
      (List.pairwise_iff_getElem.mp lines.ascending i j (Nat.lt_trans hlt hlist) hlist hlt)
  · exact Nat.le_refl _

/-- If all lines ahead of `low` start below the bound and none from `high` on does, the search ends
at the first line that starts at the bound or behind it. -/
theorem lt_search_iff (bound : Int) {low high : Nat} (h : high ≤ lines.starts.size)
    (hle : low ≤ high)
    (hlow : ∀ i (hi : i < lines.starts.size), i < low → lines.starts[i] < bound)
    (hhigh : ∀ i (hi : i < lines.starts.size), high ≤ i → bound ≤ lines.starts[i])
    {i : Nat} (hi : i < lines.starts.size) :
    i < lines.search bound low high h ↔ lines.starts[i] < bound := by
  -- Each round keeps both assumptions, since the starts ascend: the one about `low` if the middle
  -- line starts below the bound, the one about `high` if it does not.
  fun_induction lines.search bound low high h with
  | case1 low high h hleft middle hmiddle hbelow ih =>
    refine ih (by omega) (fun j hj hjm => ?_) hhigh
    have hstart := lines.starts_le (Nat.le_of_lt_succ hjm) hmiddle
    omega
  | case2 low high h hleft middle hmiddle hbehind ih =>
    refine ih (by omega) hlow fun j hj hmj => ?_
    have hstart := lines.starts_le hmj hj
    omega
  | case3 low high h hleft =>
    constructor
    · exact hlow i hi
    · intro hbelow
      by_contra hge
      have hbound := hhigh i hi (by omega)
      omega

/-- Over all lines, the search ends behind those that start below the bound. -/
theorem lt_search_all_iff (bound : Int) {i : Nat} (hi : i < lines.starts.size) :
    i < lines.search bound 0 lines.starts.size (Nat.le_refl _) ↔ lines.starts[i] < bound :=
  lines.lt_search_iff bound (Nat.le_refl _) (Nat.zero_le _)
    (fun j _ hlow => absurd hlow (Nat.not_lt_zero j))
    (fun _ hj hhigh => absurd hj (Nat.not_lt_of_le hhigh)) hi

/-- The lines up to `line`, counted from zero, and no others start at or before `offset`. -/
def IsLine (offset line : Nat) : Prop :=
  ∀ i (hi : i < lines.starts.size), i ≤ line ↔ lines.starts[i] ≤ offset

/-- The position of an offset is on the last line that starts at or before it. -/
theorem exists_isLine (offset : Nat) :
    ∃ (line : Nat) (h : line < lines.starts.size), lines.IsLine offset line ∧
      lines.position offset = ⟨line + 1, offset - lines.starts[line] + 1⟩ := by
  obtain ⟨hsize, hfirst⟩ := Array.getElem?_eq_some_iff.mp lines.first
  -- The first line starts at zero, so the search ends behind it.
  have hpos := (lines.lt_search_all_iff (offset + 1) hsize).mpr (by omega)
  refine ⟨_, _, fun i hi => ?_, rfl⟩
  have hi' := lines.lt_search_all_iff (offset + 1) hi
  omega

/-- Every offset has a known position. -/
theorem isKnown_position (source : Text) (offset : Nat) :
    ((ofText source).position offset).isKnown = true := by
  obtain ⟨line, hline, -, hposition⟩ := (ofText source).exists_isLine offset
  rw [hposition]
  exact decide_eq_true (Nat.succ_pos line)

/-- There is a line below a bound if the bound is positive. -/
theorem search_eq_zero_iff (bound : Int) :
    lines.search bound 0 lines.starts.size (Nat.le_refl _) = 0 ↔ bound ≤ 0 := by
  obtain ⟨hsize, hfirst⟩ := Array.getElem?_eq_some_iff.mp lines.first
  have hsearch := lines.lt_search_all_iff bound hsize
  omega

/-- Only the greatest machine integer has no number after it. -/
theorem toInt_add_one {offset : Int64} (h : offset ≠ Int64.maxValue) :
    (offset + 1).toInt = offset.toInt + 1 := by
  have hlow := offset.le_toInt
  have hhigh := offset.toInt_le
  have hne : offset.toInt ≠ Int64.maxValue.toInt := mt Int64.toInt_inj.mp h
  rw [Int64.toInt_maxValue] at hhigh hne
  rw [Int64.toInt_add, show (1 : Int64).toInt = 1 from rfl]
  apply Int.bmod_eq_of_le <;> omega

/-- A machine integer has no position if it is negative or the number after it wraps around. -/
theorem position?_eq_none_iff {offset : Int64} :
    lines.position? offset = none ↔ offset < 0 ∨ offset = Int64.maxValue := by
  have hnone : lines.position? offset = none ↔ (offset + 1).toInt ≤ 0 := by
    rw [← lines.search_eq_zero_iff, position?]
    by_cases hfound : lines.search (offset + 1).toInt 0 lines.starts.size (Nat.le_refl _) = 0
    · exact iff_of_true (dif_pos hfound) hfound
    · rw [dif_neg hfound]
      exact iff_of_false (Option.some_ne_none _) hfound
  rw [hnone]
  by_cases hmax : offset = Int64.maxValue
  · subst hmax
    decide
  · rw [toInt_add_one hmax, Int64.lt_iff_toInt_lt, show (0 : Int64).toInt = 0 from rfl]
    simp only [hmax, or_false]
    omega

/-- Every other machine integer has the position of the number that it stands for. -/
theorem position?_eq_some {offset : Int64} (h : 0 ≤ offset) (hmax : offset ≠ Int64.maxValue) :
    lines.position? offset = some (lines.position offset.toNatClampNeg) := by
  have hnumber : (offset.toNatClampNeg : Int) = offset.toInt :=
    Int.toNat_of_nonneg (Int64.le_iff_toInt_le.mp h)
  have hbound : (offset + 1).toInt = offset.toNatClampNeg + 1 := by
    rw [toInt_add_one hmax, hnumber]
  have hfound : lines.search (offset + 1).toInt 0 lines.starts.size (Nat.le_refl _) ≠ 0 := by
    rw [ne_eq, search_eq_zero_iff]
    omega
  rw [position?, dif_neg hfound, position, Option.some.injEq, Position.mk.injEq]
  simp only [hbound] at hfound ⊢
  refine ⟨by omega, ?_⟩
  -- The line that is found starts at or before the offset, so nothing is cut off the column.
  have hle := lines.search_le (offset.toNatClampNeg + 1) (Nat.le_refl _)
    (Nat.zero_le lines.starts.size)
  have hstart := (lines.lt_search_all_iff (offset.toNatClampNeg + 1) (by omega)).mp
    (Nat.sub_one_lt hfound)
  omega

/-- A later offset has a later position. -/
theorem position_lt {offset offset' : Nat} (h : offset < offset') :
    (lines.position offset).atOrBefore (lines.position offset') = true ∧
      lines.position offset ≠ lines.position offset' := by
  obtain ⟨line, hline, hlast, hposition⟩ := lines.exists_isLine offset
  obtain ⟨line', hline', hlast', hposition'⟩ := lines.exists_isLine offset'
  have hstart := (hlast line hline).mp (Nat.le_refl line)
  have hle : line ≤ line' := (hlast' line hline).mpr (by omega)
  rw [hposition, hposition', Position.atOrBefore_iff, ne_eq, Position.mk.injEq]
  dsimp only
  -- On another line the position is later; on the same line the columns differ as the offsets do.
  rcases Nat.lt_or_eq_of_le hle with hlt | rfl <;> omega

end LineIndex

end WatCompiler
