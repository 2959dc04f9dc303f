import Mathlib.Data.Finset.Card
import Mathlib.Data.Finset.Lattice.Fold
import Mathlib.Data.Prod.Lex
import Mathlib.Order.Lattice.Nat
import WatCompiler.Proofs.Position

/-!
# Positions by counting

The line index searches a table of line starts. What it finds is what counting finds in the source
itself: an offset is on the line after all line feeds ahead of it, as many columns behind the last
of them as there are bytes in between. Offsets are not bounded by the source; those behind its end
go on in the last line. They are machine integers, and only the greatest one has no position
(`position?_eq_counted`).
-/

namespace WatCompiler

namespace Text

/-- Where a text has line feeds ahead of an offset. -/
def newlinesBefore (source : Text) (offset : Nat) : Finset Nat :=
  {i ∈ Finset.range offset | source[i]? = some newline}

/-- Where the line of an offset starts: just after the last line feed ahead of the offset, or at
zero if there is none. -/
def lineStart (source : Text) (offset : Nat) : Nat :=
  (source.newlinesBefore offset).sup (· + 1)

theorem mem_newlinesBefore {source : Text} {offset i : Nat} :
    i ∈ source.newlinesBefore offset ↔ i < offset ∧ source[i]? = some newline := by
  rw [newlinesBefore, Finset.mem_filter, Finset.mem_range]

theorem lineStart_le (source : Text) (offset : Nat) : source.lineStart offset ≤ offset :=
  Finset.sup_le fun _ hi => (mem_newlinesBefore.mp hi).1

end Text

namespace LineIndex

variable {source : Text} {offset line : Nat}

/-- The line feeds ahead of an offset are those that start the lines from the second one up to its
own. -/
theorem mem_take_startsAfter (hlast : (ofText source).IsLine offset line) {start : Nat} :
    start ∈ (startsAfter 0 source).take line ↔
      ∃ i ∈ source.newlinesBefore offset, i + 1 = start := by
  have hreached : ∀ j (hj : j < (startsAfter 0 source).length),
      j < line ↔ (startsAfter 0 source)[j] ≤ offset :=
        fun j hj => hlast (j + 1) (Nat.succ_lt_succ hj)
  rw [List.mem_take_iff_getElem]
  constructor
  · rintro ⟨j, hj, rfl⟩
    obtain ⟨hline, hj⟩ := lt_min_iff.mp hj
    have hle := (hreached j hj).mp hline
    obtain ⟨i, hnewline, hstart⟩ := mem_startsAfter.mp (List.getElem_mem hj)
    exact ⟨i, Text.mem_newlinesBefore.mpr ⟨by omega, hnewline⟩, by omega⟩
  · rintro ⟨i, hi, rfl⟩
    obtain ⟨hlt, hnewline⟩ := Text.mem_newlinesBefore.mp hi
    have hmem : i + 1 ∈ startsAfter 0 source :=
      mem_startsAfter.mpr ⟨i, hnewline, by omega⟩
    obtain ⟨j, hj, hstart⟩ := List.mem_iff_getElem.mp hmem
    exact ⟨j, lt_min ((hreached j hj).mpr (by omega)) hj, hstart⟩

theorem card_newlinesBefore (h : line < (ofText source).starts.size)
    (hlast : (ofText source).IsLine offset line) : (source.newlinesBefore offset).card = line := by
  have himage : (source.newlinesBefore offset).image (· + 1) =
      ((startsAfter 0 source).take line).toFinset := by
    ext start
    rw [Finset.mem_image, List.mem_toFinset, mem_take_startsAfter hlast]
  have hnodup : ((startsAfter 0 source).take line).Nodup :=
    ((pairwise_startsAfter 0 source).imp Nat.ne_of_lt).sublist (List.take_sublist _ _)
  calc (source.newlinesBefore offset).card
    _ = ((source.newlinesBefore offset).image (· + 1)).card :=
      (Finset.card_image_of_injective _ (add_left_injective 1)).symm
    _ = ((startsAfter 0 source).take line).length := by
      rw [himage, List.toFinset_card_of_nodup hnodup]
    _ = line := List.length_take_of_le (Nat.le_of_lt_succ h)

theorem lineStart_eq (h : line < (ofText source).starts.size)
    (hlast : (ofText source).IsLine offset line) :
    source.lineStart offset = (ofText source).starts[line] := by
  refine Nat.le_antisymm (Finset.sup_le fun i hi => ?_) ?_
  · obtain ⟨j, hj, hstart⟩ :=
      List.mem_take_iff_getElem.mp ((mem_take_startsAfter hlast).mpr ⟨i, hi, rfl⟩)
    rw [← hstart]
    exact (ofText source).starts_le (lt_min_iff.mp hj).1 h
  · cases line with
    | zero => exact Nat.zero_le _
    | succ j =>
      have hj : j < (startsAfter 0 source).length := Nat.lt_of_succ_lt_succ h
      have hmem : (startsAfter 0 source)[j] ∈ (startsAfter 0 source).take (j + 1) :=
        List.mem_take_iff_getElem.mpr ⟨j, lt_min (Nat.lt_succ_self j) hj, rfl⟩
      obtain ⟨i, hi, hstart⟩ := (mem_take_startsAfter hlast).mp hmem
      exact hstart.symm.trans_le (Finset.le_sup (f := (· + 1)) hi)

/-- The position of an offset, counted in the source. -/
theorem position_eq_counted (source : Text) (offset : Nat) :
    (ofText source).position offset =
      ⟨1 + (source.newlinesBefore offset).card, offset - source.lineStart offset + 1⟩ := by
  obtain ⟨line, hline, hlast, hposition⟩ := (ofText source).exists_isLine offset
  rw [hposition, card_newlinesBefore hline hlast, lineStart_eq hline hlast, Nat.add_comm]

/-- Positions come in the order of the offsets, by line and then by column. -/
theorem strictMono_position (lines : LineIndex) : StrictMono fun offset =>
    toLex ((lines.position offset).line, (lines.position offset).column) := by
  intro offset offset' hlt
  obtain ⟨hle, hne⟩ := lines.position_lt hlt
  rw [Prod.Lex.toLex_lt_toLex]
  refine (Position.atOrBefore_iff.mp hle).imp_right fun hline => ⟨hline.1, ?_⟩
  refine Nat.lt_of_le_of_ne hline.2 fun hcolumn => hne ?_
  exact Position.atOrBefore_antisymm hle
    (Position.atOrBefore_iff.mpr (.inr ⟨hline.1.symm, hcolumn.ge⟩))

/-- An integer with a position is neither negative nor the greatest one, and its position is that of
the number that it stands for. -/
theorem position_of_position? {lines : LineIndex} {offset : Int64} {p : Position}
    (h : lines.position? offset = some p) :
    lines.position offset.toNatClampNeg = p ∧ (offset.toNatClampNeg : Int) = offset.toInt := by
  have hsome : ¬(offset < 0 ∨ offset = Int64.maxValue) := by
    rw [← lines.position?_eq_none_iff, h]
    exact Option.some_ne_none p
  obtain ⟨hneg, hmax⟩ := not_or.mp hsome
  have hle : 0 ≤ offset := Int64.not_lt.mp hneg
  rw [lines.position?_eq_some hle hmax] at h
  exact ⟨Option.some.inj h, Int.toNat_of_nonneg (Int64.le_iff_toInt_le.mp hle)⟩

/-- **The line index agrees with counting.** Take a machine integer that is not negative as an
offset, also one past the end. If it is not the greatest one, its line is one more than the number
of line feeds ahead of it, and its column one more than its distance from the start of the line. The
greatest one has no position, and neither have negative ones. Where there are positions, different
offsets have different ones, in the same order. -/
theorem position?_eq_counted (source : Text) :
    (∀ offset : Int64, 0 ≤ offset → offset ≠ Int64.maxValue →
      source.lineStart offset.toNatClampNeg ≤ offset.toNatClampNeg ∧
      (ofText source).position? offset =
        some ⟨1 + (source.newlinesBefore offset.toNatClampNeg).card,
          offset.toNatClampNeg - source.lineStart offset.toNatClampNeg + 1⟩) ∧
    (∀ offset, (ofText source).position? offset = none ↔ offset < 0 ∨ offset = Int64.maxValue) ∧
    ∀ offset offset' p p', (ofText source).position? offset = some p →
      (ofText source).position? offset' = some p' →
      (p = p' → offset = offset') ∧
      (offset < offset' → toLex (p.line, p.column) < toLex (p'.line, p'.column)) := by
  refine ⟨fun offset hle hmax => ⟨source.lineStart_le _, ?_⟩,
    fun offset => (ofText source).position?_eq_none_iff, ?_⟩
  · rw [(ofText source).position?_eq_some hle hmax, position_eq_counted]
  · intro offset offset' p p' h h'
    obtain ⟨rfl, hnumber⟩ := position_of_position? h
    obtain ⟨rfl, hnumber'⟩ := position_of_position? h'
    have hmono := (ofText source).strictMono_position
    constructor
    · intro heq
      have hsame := hmono.injective (congrArg (fun p : Position => toLex (p.line, p.column)) heq)
      rw [← Int64.toInt_inj, ← hnumber, ← hnumber', hsame]
    · intro hlt
      rw [Int64.lt_iff_toInt_lt, ← hnumber, ← hnumber'] at hlt
      exact hmono (Int.ofNat_lt.mp hlt)

/-- Not every offset has its counted position: behind the greatest machine integer there is no
other. -/
theorem position?_newline_maxValue :
    ¬∀ (source : Text) (offset : Int64), 0 ≤ offset →
      (ofText source).position? offset =
        some ⟨1 + (source.newlinesBefore offset.toNatClampNeg).card,
          offset.toNatClampNeg - source.lineStart offset.toNatClampNeg + 1⟩ := by
  intro h
  have hnone : (ofText "\n").position? Int64.maxValue = none := by decide +kernel
  cases hnone.symm.trans (h "\n" Int64.maxValue (by decide))

/-- A line feed ends the line on which it stands; the last line has no end. -/
example : [0, 2, 3, 5, 6, 7, 9].map (ofText "ab\nc\n\nd").position =
    [⟨1, 1⟩, ⟨1, 3⟩, ⟨2, 1⟩, ⟨3, 1⟩, ⟨4, 1⟩, ⟨4, 2⟩, ⟨4, 4⟩] := by
  decide +kernel

end LineIndex

end WatCompiler
