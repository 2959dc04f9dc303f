import Mathlib.Data.List.TakeWhile
import WatCompiler.Proofs.Basic
import WatCompiler.TestCase

/-!
# What fences say

A fence of a document holds a program or states an assertion, as its language tells. Both are taken
without the line feeds at their end, and the assertions that are patterns for data are read
(`StatedBy`). A test case takes a program only as long as it has none, and any number of assertions
(`withFence_eq_ok_iff`).
-/

namespace WatCompiler.TestCase

open Markdown (Block)

/-! ## Content -/

/-- What is left of a text without the line feeds at its end. -/
structure Strips (content kept : Text) : Prop where
  rest : ∃ count, content = kept ++ List.replicate count Text.newline
  last : kept.getLast? ≠ some Text.newline

/-- There is one way to strip a text. -/
theorem strips_iff {content kept : Text} : Strips content kept ↔ kept = stripped content := by
  constructor
  · rintro ⟨⟨count, rfl⟩, hlast⟩
    have hall : (List.replicate count Text.newline).all (· = Text.newline) = true := by
      rw [List.all_eq_true]
      intro c hc
      exact decide_eq_true (List.eq_of_mem_replicate hc)
    have hhead : ∀ c ∈ kept.reverse.head?, decide (c = Text.newline) = false := by
      intro c hc
      rw [List.head?_reverse] at hc
      exact decide_eq_false fun h => hlast (by rw [hc, h])
    rw [stripped, List.reverse_append, List.reverse_replicate, dropWhile_append_of_all hall hhead,
      List.reverse_reverse]
  · rintro rfl
    constructor
    · have hfeeds : content.reverse.takeWhile (· = Text.newline) =
          List.replicate (content.reverse.takeWhile (· = Text.newline)).length Text.newline :=
        List.eq_replicate_of_mem fun c hc =>
          of_decide_eq_true (List.mem_takeWhile_imp (p := fun c => decide (c = Text.newline)) hc)
      refine ⟨(content.reverse.takeWhile (· = Text.newline)).length, ?_⟩
      rw [stripped, ← List.reverse_replicate, ← hfeeds, ← List.reverse_append,
        List.takeWhile_append_dropWhile, List.reverse_reverse]
    · rw [stripped, List.getLast?_reverse]
      intro h
      have hhead := List.head?_dropWhile_not (fun c => decide (c = Text.newline)) content.reverse
      rw [h] at hhead
      exact of_decide_eq_false hhead rfl

/-! ## Languages -/

/-- The languages that a fence may have. -/
def IsKnown (language : Text) : Prop :=
  language = [] ∨ language = inputLanguage ∨ ∃ kind : Expectation, kind.language = language

/-- Whether a block states an assertion. -/
def isAssertion : Block → Bool
  | .heading .. => false
  | .fence language _ _ => Expectation.all.any fun kind => kind.language = language

/-- The program that a block holds. -/
def program? : Block → Option Text
  | .heading .. => none
  | .fence language content _ => if language = inputLanguage then some content else none

/-- Programs are in a language of their own. -/
theorem language_ne_inputLanguage (kind : Expectation) : kind.language ≠ inputLanguage := by
  cases kind <;> decide

/-- A language tells what is expected. -/
theorem ofLanguage?_eq_some_iff {language : Text} {kind : Expectation} :
    Expectation.ofLanguage? language = some kind ↔ kind.language = language := by
  constructor
  · intro h
    exact eq_of_beq (List.find?_some (p := fun e : Expectation => e.language == language) h)
  · rintro rfl
    cases kind <;> decide

theorem isAssertion_fence_iff {language content : Text} {line : Nat} :
    isAssertion (.fence language content line) = true ↔
      ∃ kind : Expectation, kind.language = language := by
  change (Expectation.all.any fun kind => decide (kind.language = language)) = true ↔ _
  rw [List.any_eq_true]
  constructor
  · rintro ⟨kind, -, h⟩
    exact ⟨kind, of_decide_eq_true h⟩
  · rintro ⟨kind, h⟩
    exact ⟨kind, by cases kind <;> decide, decide_eq_true h⟩

/-! ## Assertions -/

/-- The expectations that are patterns for data. -/
def dataPatterns : List Expectation := [.ast, .types, .wat]

/-- A fence states an assertion: its language tells the kind, and the content of a pattern is
read. -/
structure StatedBy (language content : Text) (line : Nat) (a : Assertion) : Prop where
  language : a.kind.language = language
  content : Strips content a.content
  line : a.line = line
  isSome : a.pattern.isSome = true ↔ a.kind ∈ dataPatterns
  pattern : ∀ d, a.pattern = some d → Datum.parse a.content = .ok d

/-- A block states an assertion. -/
def States : Block → Assertion → Prop
  | .heading .., _ => False
  | .fence language content line, a => StatedBy language content line a

theorem isPattern_iff (kind : Expectation) : kind.isPattern = true ↔ kind ∈ dataPatterns := by
  cases kind <;> decide

/-- A fence in the language of an expectation states one assertion, or none if it is a pattern that
cannot be read. -/
theorem statedBy_iff {kind : Expectation} {content : Text} {line : Nat} {a : Assertion} :
    StatedBy kind.language content line a ↔
      (kind.isPattern = true ∧
        ∃ d, Datum.parse (stripped content) = .ok d ∧ a = ⟨kind, stripped content, some d, line⟩) ∨
      (kind.isPattern = false ∧ a = ⟨kind, stripped content, none, line⟩) := by
  constructor
  · rintro ⟨hlanguage, hcontent, hline, hsome, hpattern⟩
    obtain ⟨kind', kept, pattern, line'⟩ := a
    have hkind : kind' = kind := by
      have hfound := ofLanguage?_eq_some_iff.mpr hlanguage
      rw [ofLanguage?_eq_some_iff.mpr rfl] at hfound
      exact (Option.some.inj hfound).symm
    subst hkind
    cases strips_iff.mp hcontent
    cases hline
    cases pattern with
    | some d =>
      exact .inl ⟨(isPattern_iff _).mpr (hsome.mp rfl), d, hpattern d rfl, rfl⟩
    | none =>
      refine .inr ⟨Bool.eq_false_iff.mpr fun h => ?_, rfl⟩
      cases hsome.mpr ((isPattern_iff _).mp h)
  · rintro (⟨hpattern, d, hparse, rfl⟩ | ⟨hplain, rfl⟩)
    · refine ⟨rfl, strips_iff.mpr rfl, rfl, iff_of_true rfl ((isPattern_iff _).mp hpattern), ?_⟩
      intro e he
      cases he
      exact hparse
    · have hnone : kind ∉ dataPatterns := mt (isPattern_iff _).mpr (Bool.eq_false_iff.mp hplain)
      refine ⟨rfl, strips_iff.mpr rfl, rfl, iff_of_false Bool.false_ne_true hnone, ?_⟩
      intro e he
      cases he

/-! ## Adding to a test case -/

/-- A fence adds its program, unless there is one, or its assertion. -/
theorem withFence_eq_ok_iff {t u : TestCase} {language content : Text} {line : Nat} :
    t.withFence language content line = .ok u ↔
      (language = inputLanguage ∧ t.input = [] ∧ u = { t with input := stripped content }) ∨
      ∃ a, StatedBy language content line a ∧ u = { t with assertions := t.assertions ++ [a] } := by
  unfold withFence
  by_cases hinput : language = inputLanguage
  · have hnone : ¬∃ a, StatedBy language content line a ∧
        u = { t with assertions := t.assertions ++ [a] } := by
      rintro ⟨a, ha, -⟩
      exact language_ne_inputLanguage a.kind (ha.language.trans hinput)
    rw [if_pos hinput, or_iff_left hnone]
    split
    · next hempty =>
      exact ⟨fun h => ⟨hinput, hempty, by cases h; rfl⟩, fun h => by rw [h.2.2]⟩
    · next hfull => exact ⟨fun h => (by cases h), fun h => absurd h.2.1 hfull⟩
  rw [if_neg hinput, or_iff_right fun h => hinput h.1]
  cases hkind : Expectation.ofLanguage? language with
  | none =>
    refine ⟨fun h => (by cases h), ?_⟩
    rintro ⟨a, ha, -⟩
    rw [ofLanguage?_eq_some_iff.mpr ha.language] at hkind
    cases hkind
  | some kind =>
    cases ofLanguage?_eq_some_iff.mp hkind
    cases hpattern : kind.isPattern with
    | true =>
      simp only [statedBy_iff, hpattern, true_and, Bool.true_eq_false, false_and, or_false, if_true]
      cases hparse : Datum.parse (stripped content) with
      | error e =>
        refine ⟨fun h => (by cases h), ?_⟩
        rintro ⟨a, ⟨d, hd, -⟩, -⟩
        cases hd
      | ok d =>
        constructor
        · intro h
          cases h
          exact ⟨_, ⟨d, rfl, rfl⟩, rfl⟩
        · rintro ⟨a, ⟨d', hd, rfl⟩, rfl⟩
          cases hd
          rfl
    | false =>
      simp only [statedBy_iff, hpattern, true_and, Bool.false_eq_true, false_and,
        false_or, if_false]
      constructor
      · intro h
        cases h
        exact ⟨_, rfl, rfl⟩
      · rintro ⟨a, rfl, rfl⟩
        rfl

/-- A test case needs a program that is not empty and something expected. -/
theorem finished_eq_ok_iff {t u : TestCase} :
    t.finished = .ok u ↔ t.input ≠ [] ∧ t.assertions ≠ [] ∧ u = t := by
  unfold finished
  by_cases hinput : t.input = []
  · rw [if_pos hinput]
    exact ⟨fun h => (by cases h), fun h => absurd hinput h.1⟩
  rw [if_neg hinput]
  by_cases hassertions : t.assertions = []
  · rw [if_pos (List.isEmpty_iff.mpr hassertions)]
    exact ⟨fun h => (by cases h), fun h => absurd hassertions h.2.1⟩
  · rw [if_neg (mt List.isEmpty_iff.mp hassertions)]
    exact ⟨fun h => ⟨hinput, hassertions, by cases h; rfl⟩, fun h => by rw [h.2.2]⟩

/-- A fence goes into the test case that was started. -/
theorem ofBlocks_fence {t : TestCase} {blocks : List Block} {ts : List TestCase}
    {language content : Text} {line : Nat} (hlanguage : language ≠ []) :
    ofBlocks (some t) (.fence language content line :: blocks) = .ok ts ↔
      ∃ u, t.withFence language content line = .ok u ∧ ofBlocks (some u) blocks = .ok ts := by
  rw [ofBlocks, if_neg hlanguage, bind_eq_ok]
  simp only [mapError_eq_ok]

end WatCompiler.TestCase
