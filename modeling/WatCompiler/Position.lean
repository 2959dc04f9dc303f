import WatCompiler.Text.Decimal

/-!
# Positions in a source

A position is a line and a column, both counted from one. The line index of a source turns a byte
offset into a position. Offsets past the end belong to the last line.
-/

namespace WatCompiler

/-- A line and a column, counted from one. Line zero means that the position is not known. -/
structure Position where
  line : Nat
  column : Nat
deriving DecidableEq, Repr, Inhabited

namespace Position

/-- The position of something that stands at no place in a source. -/
def unknown : Position := ⟨0, 0⟩

/-- Whether this is a place in a source. -/
def isKnown (p : Position) : Bool := 0 < p.line

/-- The position as messages give it. -/
def describe (p : Position) : Text :=
  "line " ++ Text.ofNat p.line ++ ", col " ++ Text.ofNat p.column

end Position

/-- Something together with its place in the source. -/
structure Located (α : Type) where
  what : α
  pos : Position
deriving DecidableEq, Repr

/-- The wording of a located error: its class, what is wrong, and where, if that is known. -/
def Position.report (p : Position) (errorClass what : Text) : Text :=
  if p.isKnown then errorClass ++ ": " ++ what ++ " (" ++ p.describe ++ ")"
  else errorClass ++ ": " ++ what

/-- The offsets at which the lines of a source start: the first line at offset zero, and every other
line behind the start of the one ahead of it. -/
structure LineIndex where
  starts : Array Nat
  first : starts[0]? = some 0
  ascending : starts.toList.Pairwise (· < ·)
deriving DecidableEq, Repr

namespace LineIndex

/-- The offsets just after the line feeds of a text that begins at `offset`. -/
def startsAfter (offset : Nat) : Text → List Nat
  | [] => []
  | c :: rest =>
    if c = Text.newline then (offset + 1) :: startsAfter (offset + 1) rest
    else startsAfter (offset + 1) rest

/-- A line starts behind every newline and nowhere else. -/
theorem mem_startsAfter {start offset : Nat} {t : Text} :
    start ∈ startsAfter offset t ↔ ∃ i, t[i]? = some Text.newline ∧ start = offset + i + 1 := by
  induction t generalizing offset with
  | nil => simp [startsAfter]
  | cons c rest ih =>
    have hrest : start ∈ startsAfter (offset + 1) rest ↔
        ∃ i, (c :: rest)[i + 1]? = some Text.newline ∧ start = offset + (i + 1) + 1 := by
      simp only [ih, List.getElem?_cons_succ, Nat.add_assoc, Nat.add_comm 1]
    rw [← Nat.or_exists_add_one, ← hrest, List.getElem?_cons_zero, Option.some.injEq]
    by_cases hc : c = Text.newline <;> simp [startsAfter, hc]

theorem pairwise_startsAfter (offset : Nat) (t : Text) :
    (startsAfter offset t).Pairwise (· < ·) := by
  induction t generalizing offset with
  | nil => exact .nil
  | cons c rest ih =>
    by_cases hc : c = Text.newline
    · rw [startsAfter, if_pos hc]
      refine .cons (fun start hstart => ?_) (ih (offset + 1))
      obtain ⟨i, -, rfl⟩ := mem_startsAfter.mp hstart
      omega
    · rw [startsAfter, if_neg hc]
      exact ih (offset + 1)

/-- The line index of a source: the first line starts at offset zero, every other one after a line
feed. -/
def ofText (source : Text) : LineIndex where
  starts := (0 :: startsAfter 0 source).toArray
  first := rfl
  ascending := by
    refine .cons (fun start hstart => ?_) (pairwise_startsAfter 0 source)
    obtain ⟨i, -, rfl⟩ := mem_startsAfter.mp hstart
    omega

/-- The first line from `low` up to `high` that starts at `bound` or behind it, or `high` if there
is none. What is left of the lines is halved until nothing is left. -/
def search (lines : LineIndex) (bound : Int) (low high : Nat) (h : high ≤ lines.starts.size) :
    Nat :=
  if hleft : low < high then
    let middle := (low + high) / 2
    have hmiddle : middle < lines.starts.size := by omega
    if lines.starts[middle] < bound then lines.search bound (middle + 1) high h
    else lines.search bound low middle (Nat.le_of_lt hmiddle)
  else low
termination_by high - low
decreasing_by all_goals omega

/-- The search never leaves its window. -/
theorem search_le (lines : LineIndex) (bound : Int) {low high : Nat} (h : high ≤ lines.starts.size)
    (hle : low ≤ high) : lines.search bound low high h ≤ high := by
  fun_induction lines.search bound low high h with
  | case1 low high h hleft middle hmiddle hbelow ih => exact ih (by omega)
  | case2 low high h hleft middle hmiddle hbehind ih =>
    have := ih (by omega)
    omega
  | case3 low high h hleft => exact hle

/-- The position of an offset in the source: its line is the last one that starts at or before
it. -/
def position (lines : LineIndex) (offset : Nat) : Position :=
  let line := lines.search (offset + 1) 0 lines.starts.size (Nat.le_refl _) - 1
  have hline : line < lines.starts.size := by
    have hsize := (Array.getElem?_eq_some_iff.mp lines.first).1
    have hle := lines.search_le (offset + 1) (Nat.le_refl _) (Nat.zero_le lines.starts.size)
    omega
  ⟨line + 1, offset - lines.starts[line] + 1⟩

/-- The position of any machine integer, taken as an offset. The number after the greatest one wraps
around. Where no line starts below the number after the offset, there is no position. -/
def position? (lines : LineIndex) (offset : Int64) : Option Position :=
  let found := lines.search (offset + 1).toInt 0 lines.starts.size (Nat.le_refl _)
  if hfound : found = 0 then none
  else
    have hline : found - 1 < lines.starts.size := by
      have hle := lines.search_le (offset + 1).toInt (Nat.le_refl _) (Nat.zero_le lines.starts.size)
      omega
    some ⟨found, (offset.toInt - lines.starts[found - 1] + 1).toNat⟩

end LineIndex

end WatCompiler
