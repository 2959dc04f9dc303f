import Mathlib.Data.List.Forall2
import WatCompiler.Proofs.TestCase.Fences

/-!
# Sections of a document

A document is read block by block, with the test case that was started last. That gives the same as
cutting the document at its titles, the headings of test cases, and reading each section for itself:
the document is accepted if and only if nothing in front of the first title counts and every section
has its program and its assertions (`ofBlocks_eq_ok_iff`). So there is one test case for each title,
and its assertions are the fences of its section that state one (`ofBlocks_exact`).

Whether a section has a program yet is read off its text. A program without text does not count, so
that others may follow it: of the programs of a section all but the last one are empty
(`programs_of_ofBlocks`).
-/

namespace WatCompiler.TestCase

open Markdown (Block)

/-! ## Titles and what follows them -/

/-- Whether a block is the heading of a test case. -/
def isTitle : Block → Bool
  | .heading text _ => headingStart.isPrefixOf text
  | .fence .. => false

/-- The blocks in front of the next title. -/
def untilTitle (blocks : List Block) : List Block := blocks.takeWhile fun b => !isTitle b

/-- What follows each title of a document, up to the next one. -/
def bodies : List Block → List (List Block)
  | [] => []
  | b :: rest => if isTitle b then untilTitle rest :: bodies rest else bodies rest

/-- The heading of a test case. -/
def title (t : TestCase) : Block := .heading (headingStart ++ t.name) t.line

section Titles

variable {b : Block} {rest : List Block}

/-- A title ends the blocks before it. -/
theorem untilTitle_cons_of_isTitle (h : isTitle b = true) : untilTitle (b :: rest) = [] :=
  List.takeWhile_cons_of_neg (by rw [h]; decide)

/-- Other blocks belong to what comes before the next title. -/
theorem untilTitle_cons (h : isTitle b = false) : untilTitle (b :: rest) = b :: untilTitle rest :=
  List.takeWhile_cons_of_pos (by rw [h]; rfl)

/-- A title starts a section. -/
theorem bodies_cons_of_isTitle (h : isTitle b = true) :
    bodies (b :: rest) = untilTitle rest :: bodies rest := by
  rw [bodies, if_pos h]

/-- Any other block belongs to a section that has started. -/
theorem bodies_cons (h : isTitle b = false) : bodies (b :: rest) = bodies rest := by
  rw [bodies, if_neg (by rw [h]; decide)]

theorem filter_isTitle_cons (h : isTitle b = false) :
    (b :: rest).filter isTitle = rest.filter isTitle :=
  List.filter_cons_of_neg (by rw [h]; decide)

/-- The name is what follows the start of a title. -/
theorem name?_eq_some_iff {heading name : Text} :
    name? heading = some name ↔ heading = headingStart ++ name := by
  unfold name?
  constructor
  · intro h
    split at h
    · next hstart =>
      obtain ⟨rest, hrest⟩ := List.isPrefixOf_iff_prefix.mp hstart
      cases h
      rw [← hrest, List.drop_left]
    · cases h
  · intro h
    have hstart : headingStart.isPrefixOf heading = true :=
      List.isPrefixOf_iff_prefix.mpr ⟨name, h.symm⟩
    rw [if_pos hstart, h, List.drop_left]

theorem isTitle_heading (text : Text) (line : Nat) :
    isTitle (.heading text line) = (name? text).isSome := by
  change headingStart.isPrefixOf text = _
  unfold name?
  split
  · next hstart => exact hstart
  · next hstart => exact Bool.eq_false_iff.mpr hstart

end Titles

/-! ## Completing a test case -/

/-- The programs among blocks. -/
def programs (blocks : List Block) : List Text := blocks.filterMap program?

/-- A fence has a language that it may have. -/
def HasKnownLanguage : Block → Prop
  | .heading .. => True
  | .fence language _ _ => IsKnown language

/-- Headings inside a section and fences without a language do not count. -/
def isIdle : Block → Bool
  | .heading .. => true
  | .fence language _ _ => language = []

/-- Blocks complete a test case that was started. All of its programs but the last one are empty,
those that it had before the blocks included. -/
structure Completes (t : TestCase) (body : List Block) (u : TestCase) : Prop where
  name : u.name = t.name
  line : u.line = t.line
  input : ∃ count, t.input :: (programs body).map stripped = List.replicate count [] ++ [u.input]
  assertions : ∃ added, List.Forall₂ States (body.filter isAssertion) added ∧
    u.assertions = t.assertions ++ added
  known : ∀ b ∈ body, HasKnownLanguage b

section Completing

variable {t u : TestCase} {body : List Block} {b : Block} {language content : Text} {line : Nat}

/-- Without blocks nothing is added. -/
theorem completes_nil : Completes t [] u ↔ u = t := by
  constructor
  · rintro ⟨hname, hline, ⟨count, hinput⟩, ⟨added, hadded, hassertions⟩, -⟩
    cases hadded
    have hinput' : u.input = t.input := by
      cases count with
      | zero => exact (List.cons.inj hinput).1.symm
      | succ n => simp [programs, List.replicate_succ] at hinput
    rw [List.append_nil] at hassertions
    cases t
    cases u
    simp only [mk.injEq]
    exact ⟨hname, hinput', hline, hassertions⟩
  · rintro rfl
    exact ⟨rfl, rfl, ⟨0, rfl⟩, ⟨[], .nil, (List.append_nil _).symm⟩, List.forall_mem_nil _⟩

theorem program?_of_isIdle (hb : isIdle b = true) : program? b = none := by
  cases b with
  | heading text line => rfl
  | fence language content line =>
    cases of_decide_eq_true (p := language = []) hb
    rfl

theorem isAssertion_of_isIdle (hb : isIdle b = true) : isAssertion b = false := by
  cases b with
  | heading text line => rfl
  | fence language content line =>
    cases of_decide_eq_true (p := language = []) hb
    rfl

theorem hasKnownLanguage_of_isIdle (hb : isIdle b = true) : HasKnownLanguage b := by
  cases b with
  | heading text line => trivial
  | fence language content line => exact .inl (of_decide_eq_true hb)

/-- A block that says nothing can be left out. -/
theorem completes_cons_idle (hb : isIdle b = true) :
    Completes t (b :: body) u ↔ Completes t body u := by
  have hprograms : programs (b :: body) = programs body :=
    List.filterMap_cons_none (program?_of_isIdle hb)
  have hfilter : (b :: body).filter isAssertion = body.filter isAssertion :=
    List.filter_cons_of_neg (by rw [isAssertion_of_isIdle hb]; decide)
  constructor
  · rintro ⟨hname, hline, hinput, hassertions, hknown⟩
    rw [hprograms] at hinput
    rw [hfilter] at hassertions
    exact ⟨hname, hline, hinput, hassertions, (List.forall_mem_cons.mp hknown).2⟩
  · rintro ⟨hname, hline, hinput, hassertions, hknown⟩
    rw [← hprograms] at hinput
    rw [← hfilter] at hassertions
    exact ⟨hname, hline, hinput, hassertions,
      List.forall_mem_cons.mpr ⟨hasKnownLanguage_of_isIdle hb, hknown⟩⟩

/-- Blanks and a last one: the first of several is a blank. -/
theorem exists_replicate_cons_cons {α : Type} {first second blank last : α} {rest : List α} :
    (∃ count, first :: second :: rest = List.replicate count blank ++ [last]) ↔
      first = blank ∧ ∃ count, second :: rest = List.replicate count blank ++ [last] := by
  constructor
  · rintro ⟨count, h⟩
    cases count with
    | zero => cases h
    | succ count =>
      rw [List.replicate_succ, List.cons_append] at h
      obtain ⟨hfirst, hrest⟩ := List.cons.inj h
      exact ⟨hfirst, count, hrest⟩
  · rintro ⟨rfl, count, h⟩
    exact ⟨count + 1, by rw [h, List.replicate_succ, List.cons_append]⟩

/-- A program has to be the first one that is not empty. -/
theorem completes_cons_program :
    Completes t (.fence inputLanguage content line :: body) u ↔
      t.input = [] ∧ Completes { t with input := stripped content } body u := by
  have hprograms : programs (.fence inputLanguage content line :: body) = content ::
      programs body :=
    List.filterMap_cons_some rfl
  have hfilter : (Block.fence inputLanguage content line :: body).filter isAssertion =
      body.filter isAssertion := by
    refine List.filter_cons_of_neg fun h => ?_
    obtain ⟨kind, hkind⟩ := isAssertion_fence_iff.mp h
    exact language_ne_inputLanguage kind hkind
  constructor
  · rintro ⟨hname, hline, hinput, hassertions, hknown⟩
    rw [hprograms, List.map_cons, exists_replicate_cons_cons] at hinput
    rw [hfilter] at hassertions
    exact ⟨hinput.1, hname, hline, hinput.2, hassertions, (List.forall_mem_cons.mp hknown).2⟩
  · rintro ⟨hempty, hname, hline, hinput, hassertions, hknown⟩
    refine ⟨hname, hline, ?_, ?_, List.forall_mem_cons.mpr ⟨.inr (.inl rfl), hknown⟩⟩
    · rw [hprograms, List.map_cons, exists_replicate_cons_cons]
      exact ⟨hempty, hinput⟩
    · rw [hfilter]
      exact hassertions

/-- An assertion is added to those that are there. -/
theorem completes_cons_assertion (kind : Expectation) :
    Completes t (.fence kind.language content line :: body) u ↔
      ∃ a, StatedBy kind.language content line a ∧
        Completes { t with assertions := t.assertions ++ [a] } body u := by
  have hprograms : programs (.fence kind.language content line :: body) = programs body :=
    List.filterMap_cons_none (if_neg (language_ne_inputLanguage kind))
  have hfilter : (Block.fence kind.language content line :: body).filter isAssertion =
      .fence kind.language content line :: body.filter isAssertion :=
    List.filter_cons_of_pos (isAssertion_fence_iff.mpr ⟨kind, rfl⟩)
  constructor
  · rintro ⟨hname, hline, hinput, ⟨added, hadded, hassertions⟩, hknown⟩
    rw [hprograms] at hinput
    rw [hfilter] at hadded
    obtain ⟨a, others, ha, hothers, rfl⟩ := List.forall₂_cons_left_iff.mp hadded
    exact ⟨a, ha, hname, hline, hinput,
      ⟨others, hothers,
        by rw [hassertions, List.append_assoc]; rfl⟩, (List.forall_mem_cons.mp hknown).2⟩
  · rintro ⟨a, ha, hname, hline, hinput, ⟨added, hadded, hassertions⟩, hknown⟩
    refine ⟨hname, hline, ?_, ⟨a :: added, ?_, ?_⟩,
      List.forall_mem_cons.mpr ⟨.inr (.inr ⟨kind, rfl⟩), hknown⟩⟩
    · rw [hprograms]
      exact hinput
    · rw [hfilter]
      exact .cons ha hadded
    · rw [hassertions, List.append_assoc]
      rfl

/-- A fence with a language adds what it holds, and the others go on from there. -/
theorem completes_cons_fence (hlanguage : language ≠ []) :
    Completes t (.fence language content line :: body) u ↔
      ∃ t', t.withFence language content line = .ok t' ∧ Completes t' body u := by
  constructor
  · intro h
    rcases (List.forall_mem_cons.mp h.known).1 with hempty | rfl | ⟨kind, rfl⟩
    · exact absurd hempty hlanguage
    · obtain ⟨hempty, hrest⟩ := completes_cons_program.mp h
      exact ⟨_, withFence_eq_ok_iff.mpr (.inl ⟨rfl, hempty, rfl⟩), hrest⟩
    · obtain ⟨a, ha, hrest⟩ := (completes_cons_assertion kind).mp h
      exact ⟨_, withFence_eq_ok_iff.mpr (.inr ⟨a, ha, rfl⟩), hrest⟩
  · rintro ⟨t', ht', hrest⟩
    rcases withFence_eq_ok_iff.mp ht' with ⟨rfl, hempty, rfl⟩ | ⟨a, ha, rfl⟩
    · exact completes_cons_program.mpr ⟨hempty, hrest⟩
    · cases ha.language
      exact (completes_cons_assertion a.kind).mpr ⟨a, ha, hrest⟩

end Completing

/-! ## Reading a document -/

/-- The test case of a section is read from what stands in it, and it is not without program or
assertions. -/
def GivesTestCase (body : List Block) (t : TestCase) : Prop :=
  Completes ⟨t.name, [], t.line, []⟩ body t ∧ t.input ≠ [] ∧ t.assertions ≠ []

section Documents

variable {t : TestCase} {blocks : List Block} {ts : List TestCase}

/-- A block that says nothing is passed over. -/
theorem ofBlocks_idle {b : Block} {current : Option TestCase} (hb : isIdle b = true)
    (htitle : isTitle b = false) : ofBlocks current (b :: blocks) = ofBlocks current blocks := by
  cases b with
  | heading text line =>
    rw [isTitle_heading, Option.isSome_eq_false_iff, Option.isNone_iff_eq_none] at htitle
    rw [ofBlocks, htitle]
  | fence language content line =>
    rw [ofBlocks.eq_def]
    exact if_pos (of_decide_eq_true hb)

/-- A title ends the test case before it, which has to be complete. -/
theorem ofBlocks_title {text name : Text} {line : Nat} (hname : name? text = some name) :
    ofBlocks (some t) (.heading text line :: blocks) = .ok ts ↔
      ∃ others, ts = t :: others ∧ t.input ≠ [] ∧ t.assertions ≠ [] ∧
        ofBlocks (some ⟨name, [], line, []⟩) blocks = .ok others := by
  rw [ofBlocks, hname]
  simp only [bind_eq_ok, mapError_eq_ok, finished_eq_ok_iff, pure_eq_ok]
  constructor
  · rintro ⟨u, ⟨hinput, hassertions, rfl⟩, others, hothers, rfl⟩
    exact ⟨others, rfl, hinput, hassertions, hothers⟩
  · rintro ⟨others, rfl, hinput, hassertions, hothers⟩
    exact ⟨t, ⟨hinput, hassertions, rfl⟩, others, hothers, rfl⟩

/-- A test case that starts with a title is that of the section behind the title. -/
theorem givesTestCase_cons_iff {text name : Text} {line : Nat} (hname : name? text = some name)
    {body titles : List Block} {sections : List (List Block)} :
    (∃ u others, ts = u :: others ∧ Completes ⟨name, [], line, []⟩ body u ∧ u.input ≠ [] ∧
        u.assertions ≠ [] ∧ others.map title = titles ∧
          List.Forall₂ GivesTestCase sections others) ↔
      ts.map title = .heading text line :: titles ∧
        List.Forall₂ GivesTestCase (body :: sections) ts := by
  have htext : text = headingStart ++ name := name?_eq_some_iff.mp hname
  constructor
  · rintro ⟨u, others, rfl, hu, hinput, hassertions, htitles, hothers⟩
    refine ⟨?_, .cons ⟨?_, hinput, hassertions⟩ hothers⟩
    · rw [List.map_cons, htitles, title, hu.name, hu.line, htext]
    · rw [hu.name, hu.line]
      exact hu
  · rintro ⟨htitles, hts⟩
    obtain ⟨u, others, ⟨hu, hinput, hassertions⟩, hothers, rfl⟩ := List.forall₂_cons_left_iff.mp hts
    obtain ⟨htitle, hrest⟩ := List.cons.inj htitles
    rw [title, htext] at htitle
    obtain ⟨hstart, rfl⟩ := Block.heading.inj htitle
    rw [List.append_cancel_left hstart] at hu
    exact ⟨u, others, rfl, hu, hinput, hassertions, hrest, hothers⟩

/-- The test case that was started is completed by what stands in front of the next title. -/
theorem ofBlocks_some_eq_ok_iff :
    ofBlocks (some t) blocks = .ok ts ↔
      ∃ u others, ts = u :: others ∧ Completes t (untilTitle blocks) u ∧ u.input ≠ [] ∧
        u.assertions ≠ [] ∧ others.map title = blocks.filter isTitle ∧
        List.Forall₂ GivesTestCase (bodies blocks) others := by
  -- The test case that was started changes with every fence, so the statement is about any of them.
  induction blocks generalizing t ts with
  | nil =>
    rw [ofBlocks, mapError_eq_ok, map_eq_ok]
    simp only [finished_eq_ok_iff]
    constructor
    · rintro ⟨u, ⟨hinput, hassertions, rfl⟩, rfl⟩
      exact ⟨u, [], rfl, completes_nil.mpr rfl, hinput, hassertions, rfl, .nil⟩
    · rintro ⟨u, others, rfl, hu, hinput, hassertions, htitles, -⟩
      have hut : u = t := completes_nil.mp hu
      subst hut
      rw [List.map_eq_nil_iff.mp htitles]
      exact ⟨u, ⟨hinput, hassertions, rfl⟩, rfl⟩
  | cons b rest ih =>
    by_cases htitle : isTitle b = true
    · cases b with
      | fence language content line => cases htitle
      | heading text line =>
        obtain ⟨name, hname⟩ := Option.isSome_iff_exists.mp (isTitle_heading text line ▸ htitle)
        rw [ofBlocks_title hname, untilTitle_cons_of_isTitle htitle, bodies_cons_of_isTitle htitle,
          List.filter_cons_of_pos htitle]
        simp only [ih, givesTestCase_cons_iff hname, completes_nil]
        constructor
        · rintro ⟨others, rfl, hinput, hassertions, hothers⟩
          exact ⟨t, others, rfl, rfl, hinput, hassertions, hothers⟩
        · rintro ⟨u, others, rfl, rfl, hinput, hassertions, hothers⟩
          exact ⟨others, rfl, hinput, hassertions, hothers⟩
    rw [Bool.not_eq_true] at htitle
    rw [untilTitle_cons htitle, bodies_cons htitle, filter_isTitle_cons htitle]
    by_cases hidle : isIdle b = true
    · rw [ofBlocks_idle hidle htitle, ih]
      simp only [completes_cons_idle hidle]
    · cases b with
      | heading text line => exact absurd rfl hidle
      | fence language content line =>
        have hlanguage : language ≠ [] := fun h => hidle (decide_eq_true h)
        simp only [ofBlocks_fence hlanguage, ih, completes_cons_fence hlanguage]
        constructor
        · rintro ⟨t', ht', u, others, hts, hu, hrest⟩
          exact ⟨u, others, hts, ⟨t', ht', hu⟩, hrest⟩
        · rintro ⟨u, others, hts, ⟨t', ht', hu⟩, hrest⟩
          exact ⟨t', ht', u, others, hts, hu, hrest⟩

/-- **A document is read section by section.** -/
theorem ofBlocks_eq_ok_iff :
    ofBlocks none blocks = .ok ts ↔
      (untilTitle blocks).all isIdle = true ∧ ts.map title = blocks.filter isTitle ∧
        List.Forall₂ GivesTestCase (bodies blocks) ts := by
  induction blocks with
  | nil =>
    refine ⟨fun h => ?_, fun h => ?_⟩
    · cases h
      exact ⟨rfl, rfl, .nil⟩
    · rw [List.map_eq_nil_iff.mp h.2.1]
      rfl
  | cons b rest ih =>
    by_cases htitle : isTitle b = true
    · cases b with
      | fence language content line => cases htitle
      | heading text line =>
        obtain ⟨name, hname⟩ := Option.isSome_iff_exists.mp (isTitle_heading text line ▸ htitle)
        rw [untilTitle_cons_of_isTitle htitle, bodies_cons_of_isTitle htitle,
          List.filter_cons_of_pos htitle, ← givesTestCase_cons_iff hname,
            ← ofBlocks_some_eq_ok_iff, ofBlocks,
          hname]
        exact (and_iff_right rfl).symm
    rw [Bool.not_eq_true] at htitle
    rw [untilTitle_cons htitle, bodies_cons htitle, filter_isTitle_cons htitle, List.all_cons]
    by_cases hidle : isIdle b = true
    · rw [ofBlocks_idle hidle htitle, ih, hidle, Bool.true_and]
    · cases b with
      | heading text line => exact absurd rfl hidle
      | fence language content line =>
        have hlanguage : language ≠ [] := fun h => hidle (decide_eq_true h)
        rw [ofBlocks, if_neg hlanguage, Bool.eq_false_iff.mpr hidle, Bool.false_and]
        exact ⟨fun h => (by cases h), fun h => (by cases h.1)⟩

/-! ## What a document gives -/

/-- Every block but a title stands in front of all titles or in a section. -/
theorem mem_untilTitle_or_mem_bodies {b : Block} (hb : b ∈ blocks) (htitle : isTitle b = false) :
    b ∈ untilTitle blocks ∨ ∃ body ∈ bodies blocks, b ∈ body := by
  induction blocks with
  | nil => cases hb
  | cons first rest ih =>
    by_cases hfirst : isTitle first = true
    · have hrest : b ∈ rest := by
        rcases List.mem_cons.mp hb with rfl | hrest
        · rw [hfirst] at htitle
          cases htitle
        · exact hrest
      rw [bodies_cons_of_isTitle hfirst]
      rcases ih hrest with hmem | ⟨body, hbody, hmem⟩
      · exact .inr ⟨_, List.mem_cons_self, hmem⟩
      · exact .inr ⟨body, List.mem_cons_of_mem _ hbody, hmem⟩
    · rw [Bool.not_eq_true] at hfirst
      rw [untilTitle_cons hfirst, bodies_cons hfirst]
      rcases List.mem_cons.mp hb with rfl | hrest
      · exact .inl List.mem_cons_self
      · exact (ih hrest).imp_left (List.mem_cons_of_mem _)

/-- No fence has a language that means nothing. -/
theorem hasKnownLanguage_of_ofBlocks (h : ofBlocks none blocks = .ok ts) :
    ∀ b ∈ blocks, HasKnownLanguage b := by
  obtain ⟨hidle, -, hsections⟩ := ofBlocks_eq_ok_iff.mp h
  have hgives : List.Forall₂ (fun body t => (∀ b ∈ body, HasKnownLanguage b) ∧ GivesTestCase body t)
      (bodies blocks) ts := hsections.imp fun body t hgives => ⟨hgives.1.known, hgives⟩
  have hbodies := ((List.forall₂_and_left _ _).mp hgives).1
  intro b hb
  cases b with
  | heading text line => trivial
  | fence language content line =>
    rcases mem_untilTitle_or_mem_bodies hb rfl with hmem | ⟨body, hbody, hmem⟩
    · exact hasKnownLanguage_of_isIdle (List.all_eq_true.mp hidle _ hmem)
    · exact hbodies body hbody _ hmem

/-- Whether a block is not a fence without a language. -/
def hasLanguage : Block → Bool
  | .heading .. => true
  | .fence language _ _ => language ≠ []

/-- Fences without a language could as well be left out. -/
theorem ofBlocks_filter_hasLanguage (current : Option TestCase) :
    ofBlocks current (blocks.filter hasLanguage) = ofBlocks current blocks := by
  induction blocks generalizing current with
  | nil => rfl
  | cons b rest ih =>
    cases b with
    | heading text line =>
      rw [List.filter_cons_of_pos rfl, ofBlocks.eq_def, ofBlocks.eq_def current (_ :: rest)]
      simp only [ih]
    | fence language content line =>
      by_cases hlanguage : language = []
      · have hidle : isIdle (.fence language content line) = true := decide_eq_true hlanguage
        rw [List.filter_cons_of_neg (by simpa [hasLanguage] using hlanguage), ih,
          ofBlocks_idle hidle rfl]
      · rw [List.filter_cons_of_pos (by simpa [hasLanguage] using hlanguage), ofBlocks.eq_def,
          ofBlocks.eq_def current (_ :: rest)]
        simp only [ih]

/-- **Test cases are the sections of their document.** There is one for each title, in order and
with the name and line of the title. Its assertions are those that the fences of its section state,
one for each fence in the language of an expectation and in their order. Fences without a language
are ignored, no fence has an unknown language, and none with a language stands in front of the first
title. -/
theorem ofBlocks_exact (h : ofBlocks none blocks = .ok ts) :
    ts.map title = blocks.filter isTitle ∧
      List.Forall₂ (fun body t => List.Forall₂ States (body.filter isAssertion) t.assertions)
        (bodies blocks) ts ∧
      ofBlocks none (blocks.filter hasLanguage) = .ok ts ∧
      (∀ b ∈ blocks, HasKnownLanguage b) ∧
      ∀ language content line, Block.fence language content line ∈ untilTitle blocks →
        language = [] := by
  obtain ⟨hidle, htitles, hsections⟩ := ofBlocks_eq_ok_iff.mp h
  refine ⟨htitles, hsections.imp ?_, ?_, hasKnownLanguage_of_ofBlocks h, ?_⟩
  · rintro body t ⟨hcompletes, -, -⟩
    obtain ⟨added, hadded, hassertions⟩ := hcompletes.assertions
    rw [hassertions]
    exact hadded
  · rw [ofBlocks_filter_hasLanguage, h]
  · intro language content line hmem
    exact of_decide_eq_true (List.all_eq_true.mp hidle _ hmem)

end Documents

/-- Two sections behind a fence without a language, the first of them with a heading of its own. -/
def pairBlocks : List Block :=
  [.fence [] "idle\n" 2, .heading "Test: a" 4, .fence "python" "x\n" 6, .heading "b" 8,
    .fence "wat" "(f)\n\n" 10, .heading "Test: c" 13, .fence "execute" "1\n" 15,
      .fence "python" "y\n" 18]

/-- Two sections, the second with an output to expect. -/
theorem ofBlocks_exact_pairBlocks :
    ∃ ts, ofBlocks none pairBlocks = .ok ts ∧
      ts.map (fun t => t.assertions.map fun a => (a.kind, a.pattern.isSome)) =
        [[(Expectation.wat, true)], [(Expectation.execute, false)]] ∧
      List.Forall₂ (fun body t => List.Forall₂ States (body.filter isAssertion) t.assertions)
        (bodies pairBlocks) ts := by
  have hview : (ofBlocks none pairBlocks).toOption.map (fun ts => ts.map fun t =>
      t.assertions.map fun a => (a.kind, a.pattern.isSome)) =
        some [[(Expectation.wat, true)], [(Expectation.execute, false)]] := by
    decide +kernel
  obtain ⟨ts, hts, hassertions⟩ := toOption_map_eq_some.mp hview
  exact ⟨ts, hts, hassertions, (ofBlocks_exact hts).2.1⟩

/-! ## Programs -/

/-- The program of a test case is the last one of its section, and those before it are empty. So the
section has exactly one program if and only if none of them is empty. -/
structure EndsWithProgram (body : List Block) (t : TestCase) : Prop where
  input : t.input ≠ []
  last : ∃ empty content, programs body = empty ++ [content] ∧ (∀ p ∈ empty, Strips p []) ∧
    Strips content t.input
  single : (programs body).length = 1 ↔ ∀ p ∈ programs body, ¬Strips p []

/-- All programs of a section are blank but the last one. -/
theorem exists_programs_of_givesTestCase {body : List Block} {t : TestCase}
    (h : GivesTestCase body t) :
    ∃ empty content, programs body = empty ++ [content] ∧ (∀ p ∈ empty, Strips p []) ∧
      Strips content t.input := by
  obtain ⟨hcompletes, hinput, -⟩ := h
  obtain ⟨count, hcount⟩ := hcompletes.input
  cases count with
  | zero => exact absurd (List.cons.inj hcount).1.symm hinput
  | succ count =>
    rw [List.replicate_succ, List.cons_append] at hcount
    obtain ⟨empty, last, hprograms, hempty, hlast⟩ :=
      List.map_eq_append_iff.mp (List.cons.inj hcount).2
    obtain ⟨content, rfl, hcontent⟩ := List.map_eq_singleton_iff.mp hlast
    refine ⟨empty, content, hprograms, fun p hp => strips_iff.mpr ?_, strips_iff.mpr hcontent.symm⟩
    have hmem : stripped p ∈ List.replicate count [] := hempty ▸ List.mem_map_of_mem hp
    exact (List.eq_of_mem_replicate hmem).symm

theorem endsWithProgram_of_givesTestCase {body : List Block} {t : TestCase}
    (h : GivesTestCase body t) :
    EndsWithProgram body t := by
  obtain ⟨empty, content, hprograms, hempty, hcontent⟩ := exists_programs_of_givesTestCase h
  refine ⟨h.2.1, ⟨empty, content, hprograms, hempty, hcontent⟩, ?_⟩
  rw [hprograms, List.length_append, List.length_singleton, Nat.add_eq_right,
    List.length_eq_zero_iff]
  constructor
  · rintro rfl p hp hstrips
    rw [List.nil_append, List.mem_singleton] at hp
    subst hp
    exact h.2.1 ((strips_iff.mp hcontent).trans (strips_iff.mp hstrips).symm)
  · intro hnone
    rw [List.eq_nil_iff_forall_not_mem]
    exact fun p hp => hnone p (List.mem_append_left _ hp) (hempty p hp)

/-- **Of the programs of a section only the last one has text, and it is the one of the test
case.** -/
theorem programs_of_ofBlocks {blocks : List Block} {ts : List TestCase}
    (h : ofBlocks none blocks = .ok ts) : List.Forall₂ EndsWithProgram (bodies blocks) ts :=
  (ofBlocks_eq_ok_iff.mp h).2.2.imp fun _ _ hgives => endsWithProgram_of_givesTestCase hgives

/-- A section with two programs, the first of them empty. -/
def twiceBlocks : List Block :=
  [.heading "Test: a" 1, .fence "python" [] 1, .fence "python" "x\n" 5, .fence "execute" "1\n" 8]

/-- A section with two programs is accepted if the first one is blank. -/
theorem exists_ofBlocks_twiceBlocks :
    (∃ ts, ofBlocks none twiceBlocks = .ok ts ∧ ts.map (·.input) = [("x" : Text)]) ∧
      (bodies twiceBlocks).map (fun body => (programs body).length) = [2] := by
  rw [← toOption_map_eq_some]
  decide +kernel

theorem programs_of_ofBlocks_twiceBlocks :
    ∃ ts, ofBlocks none twiceBlocks = .ok ts ∧ ts.map (·.input) = [("x" : Text)] ∧
      List.Forall₂ EndsWithProgram (bodies twiceBlocks) ts := by
  obtain ⟨⟨ts, hts, hinput⟩, -⟩ := exists_ofBlocks_twiceBlocks
  exact ⟨ts, hts, hinput, programs_of_ofBlocks hts⟩

/-- A second program is accepted behind an empty one. -/
theorem twiceBlocks_accepted :
    ∃ ts, ofBlocks none twiceBlocks = .ok ts ∧
      ¬List.Forall₂ (fun body t => ∃ content, programs body = [content] ∧ Strips content t.input)
        (bodies twiceBlocks) ts := by
  obtain ⟨⟨ts, hts, -⟩, hcounts⟩ := exists_ofBlocks_twiceBlocks
  refine ⟨ts, hts, fun hone => ?_⟩
  obtain ⟨body, hbody, hcount⟩ := List.map_eq_singleton_iff.mp hcounts
  rw [hbody] at hone
  obtain ⟨t, others, ⟨content, hcontent, -⟩, -⟩ := List.forall₂_cons_left_iff.mp hone
  rw [hcontent] at hcount
  cases hcount

end WatCompiler.TestCase
