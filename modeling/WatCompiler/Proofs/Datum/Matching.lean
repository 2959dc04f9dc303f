import Mathlib.Data.List.Forall2
import WatCompiler.Datum.Matching
import WatCompiler.Proofs.Basic

/-!
# What patterns stand for

`Matches` says which data a pattern stands for, without a search: the items of a list are dealt out
to the patterns of its pattern in runs, and there only has to be some way to do so. Main statement:
the matcher accepts a datum exactly if the pattern stands for it (`matches?_iff`). The matcher tries
the runs of an ellipsis one by one, the shortest first, and answers with its first mismatch only if
all of them fail (`matchSomeTail_eq_ok_iff`).
-/

namespace WatCompiler.Datum

/-! ## The meaning of patterns -/

/-- Kinds of data that are nothing but a text. -/
def Kind.isAtom : Kind → Bool
  | symbol | string | integer => true
  | _ => false

/-- Kinds of data that have items and tags. -/
def Kind.isListed : Kind → Bool
  | list | array => true
  | _ => false

/-- The items are dealt out to the patterns: one run for each pattern, the runs being all of the
items in their order. Only an ellipsis takes anything else than a single item. -/
structure Dealt (patterns items : List Datum) (runs : List (List Datum)) : Prop where
  whole : runs.flatten = items
  single : List.Forall₂ (fun p run => p ≠ .ellipsis → ∃ d, run = [d]) patterns runs

/-- The pattern stands for the datum. -/
inductive Matches : (pattern actual : Datum) → Prop
  /-- The symbol `_` stands for everything. -/
  | wildcard (actual : Datum) : Matches (.symbol "_") actual
  /-- An atom stands for the atom of its kind with its text. -/
  | atom {pattern actual : Datum} (kinds : pattern.kind = actual.kind)
      (atomic : pattern.kind.isAtom = true) (texts : pattern.text = actual.text) :
      Matches pattern actual
  /-- Where it is no item, an ellipsis stands for an ellipsis. -/
  | ellipsis : Matches .ellipsis .ellipsis
  /-- A list stands for lists, an array for arrays. Each tag of the pattern is there, and its first
  value matches; and there is a way to deal out the items such that they match. -/
  | items {pattern actual : Datum} {runs : List (List Datum)} (kinds : pattern.kind = actual.kind)
      (listed : pattern.kind.isListed = true)
      (tagged : ∀ key p, (key, p) ∈ pattern.tags → ∃ value, actual.tag? key = some value)
      (values : ∀ key p value, (key, p) ∈ pattern.tags → actual.tag? key = some value →
        Matches p value)
      (dealt : Dealt pattern.items actual.items runs)
      (agree : ∀ p d, (p, [d]) ∈ pattern.items.zip runs → p ≠ .ellipsis → Matches p d) :
      Matches pattern actual
  /-- A map stands for the maps that have its keys, each with a first value that matches. -/
  | map {patterns entries : List (Text × Datum)}
      (keyed : ∀ key p, (key, p) ∈ patterns → ∃ value, lookup key entries = some value)
      (values : ∀ key p value, (key, p) ∈ patterns → lookup key entries = some value →
        Matches p value) : Matches (.map patterns) (.map entries)
  | foreign (number : Int) : Matches (.foreign number) (.foreign number)

/-- The items can be dealt out to patterns that stand for them. -/
def ItemsMatch (patterns items : List Datum) : Prop :=
  ∃ runs, Dealt patterns items runs ∧
    ∀ p d, (p, [d]) ∈ patterns.zip runs → p ≠ .ellipsis → Matches p d

/-- Every name of the patterns has a first value, and its pattern stands for it. -/
def EntriesMatch (patterns entries : List (Text × Datum)) : Prop :=
  ∀ key p, (key, p) ∈ patterns → ∃ value, lookup key entries = some value ∧ Matches p value

section Items

variable {patterns items : List Datum} {pattern : Datum}

theorem itemsMatch_nil : ItemsMatch [] items ↔ items = [] := by
  constructor
  · rintro ⟨runs, ⟨rfl, hsingle⟩, -⟩
    cases hsingle
    rfl
  · rintro rfl
    exact ⟨[], ⟨rfl, .nil⟩, nofun⟩

/-- An ellipsis takes any run that the items start with. -/
theorem itemsMatch_ellipsis :
    ItemsMatch (.ellipsis :: patterns) items ↔
      ∃ run rest, items = run ++ rest ∧ ItemsMatch patterns rest := by
  constructor
  · rintro ⟨_, ⟨rfl, hsingle⟩, hagree⟩
    obtain ⟨run, runs, -, hrest, rfl⟩ := List.forall₂_cons_left_iff.mp hsingle
    exact ⟨run, runs.flatten, rfl, runs, ⟨rfl, hrest⟩,
      fun p d hmem => hagree p d (List.mem_cons_of_mem _ hmem)⟩
  · rintro ⟨run, rest, rfl, runs, ⟨rfl, hsingle⟩, hagree⟩
    refine ⟨run :: runs, ⟨rfl, .cons (fun h => absurd rfl h) hsingle⟩, fun p d hmem hp => ?_⟩
    rcases List.mem_cons.mp hmem with heq | hmem
    · exact absurd (congrArg Prod.fst heq) hp
    · exact hagree p d hmem hp

/-- Any other pattern takes the first item. -/
theorem itemsMatch_cons (hpattern : pattern ≠ .ellipsis) :
    ItemsMatch (pattern :: patterns) items ↔
      ∃ d rest, items = d :: rest ∧ Matches pattern d ∧ ItemsMatch patterns rest := by
  constructor
  · rintro ⟨_, ⟨rfl, hsingle⟩, hagree⟩
    obtain ⟨_, runs, hfirst, hrest, rfl⟩ := List.forall₂_cons_left_iff.mp hsingle
    obtain ⟨d, rfl⟩ := hfirst hpattern
    exact ⟨d, runs.flatten, rfl, hagree _ _ List.mem_cons_self hpattern, runs, ⟨rfl, hrest⟩,
      fun p d hmem => hagree p d (List.mem_cons_of_mem _ hmem)⟩
  · rintro ⟨d, rest, rfl, hmatches, runs, ⟨rfl, hsingle⟩, hagree⟩
    refine ⟨[d] :: runs, ⟨rfl, .cons (fun _ => ⟨d, rfl⟩) hsingle⟩, fun p e hmem hp => ?_⟩
    rcases List.mem_cons.mp hmem with heq | hmem
    · cases heq
      exact hmatches
    · exact hagree p e hmem hp

end Items

section Entries

variable {patterns entries : List (Text × Datum)}

theorem entriesMatch_nil : EntriesMatch [] entries := nofun

/-- A key is looked up where it is wanted, whatever its place. -/
theorem entriesMatch_cons {key : Text} {pattern : Datum} :
    EntriesMatch ((key, pattern) :: patterns) entries ↔
      (∃ value, lookup key entries = some value ∧ Matches pattern value) ∧
        EntriesMatch patterns entries := by
  constructor
  · intro h
    exact ⟨h key pattern List.mem_cons_self, fun k p hmem => h k p (List.mem_cons_of_mem _ hmem)⟩
  · rintro ⟨hfirst, hrest⟩ k p hmem
    rcases List.mem_cons.mp hmem with heq | hmem
    · cases heq
      exact hfirst
    · exact hrest k p hmem

/-- Since a name has one first value, its presence and its meaning can be said apart. -/
theorem entriesMatch_iff :
    EntriesMatch patterns entries ↔
      (∀ key p, (key, p) ∈ patterns → ∃ value, lookup key entries = some value) ∧
        ∀ key p value, (key, p) ∈ patterns → lookup key entries = some value → Matches p value := by
  constructor
  · intro h
    refine ⟨fun key p hmem => ?_, fun key p value hmem hvalue => ?_⟩
    · obtain ⟨value, hvalue, -⟩ := h key p hmem
      exact ⟨value, hvalue⟩
    · obtain ⟨first, hfirst, hmatches⟩ := h key p hmem
      cases hfirst.symm.trans hvalue
      exact hmatches
  · rintro ⟨hkeyed, hvalues⟩ key p hmem
    obtain ⟨value, hvalue⟩ := hkeyed key p hmem
    exact ⟨value, hvalue, hvalues key p value hmem hvalue⟩

end Entries

/-! ## Inversions -/

section Inversions

variable {pattern actual : Datum}

theorem matches_wildcard {t : Text} (ht : t = Text.ofString "_") : Matches (.symbol t) actual := by
  rw [ht]
  exact .wildcard actual

/-- An atom matches atoms of the same kind and text. -/
theorem matches_atom (pattern : Datum) (hatom : pattern.kind.isAtom = true)
    (hwild : ∀ t, pattern = .symbol t → t ≠ Text.ofString "_") :
    Matches pattern actual ↔ pattern.kind = actual.kind ∧ pattern.text = actual.text := by
  constructor
  · intro h
    cases h with
    | wildcard => exact absurd rfl (hwild _ rfl)
    | atom kinds _ texts => exact ⟨kinds, texts⟩
    | items _ listed =>
      cases pattern with
      | list | array => cases hatom
      | _ => cases listed
    | _ => cases hatom
  · rintro ⟨hkinds, htexts⟩
    exact .atom hkinds hatom htexts

/-- Outside of lists an ellipsis matches itself only. -/
theorem matches_ellipsis : Matches .ellipsis actual ↔ actual = .ellipsis := by
  constructor
  · intro h
    cases h with
    | atom _ atomic => cases atomic
    | ellipsis => rfl
    | items _ listed => cases listed
  · rintro rfl
    exact .ellipsis

theorem matches_foreign {number : Int} :
    Matches (.foreign number) actual ↔ actual = .foreign number := by
  constructor
  · intro h
    cases h with
    | atom _ atomic => cases atomic
    | items _ listed => cases listed
    | foreign => rfl
  · rintro rfl
    exact .foreign number

theorem matches_map {patterns : List (Text × Datum)} :
    Matches (.map patterns) actual ↔
      ∃ entries, actual = .map entries ∧ EntriesMatch patterns entries := by
  constructor
  · intro h
    cases h with
    | atom _ atomic => cases atomic
    | items _ listed => cases listed
    | map keyed values => exact ⟨_, rfl, entriesMatch_iff.mpr ⟨keyed, values⟩⟩
  · rintro ⟨entries, rfl, h⟩
    obtain ⟨keyed, values⟩ := entriesMatch_iff.mp h
    exact .map keyed values

/-- Lists and arrays stand for data of their kind with matching tags and items. -/
theorem matches_listed (hlisted : pattern.kind.isListed = true) :
    Matches pattern actual ↔
      pattern.kind = actual.kind ∧ EntriesMatch pattern.tags actual.tags ∧
        ItemsMatch pattern.items actual.items := by
  constructor
  · intro h
    cases h with
    | atom _ atomic =>
      cases pattern with
      | list | array => cases atomic
      | _ => cases hlisted
    | items kinds _ tagged values dealt agree =>
      exact ⟨kinds, entriesMatch_iff.mpr ⟨tagged, values⟩, _, dealt, agree⟩
    | _ => cases hlisted
  · rintro ⟨hkinds, htags, runs, hdealt, hagree⟩
    obtain ⟨htagged, hvalues⟩ := entriesMatch_iff.mp htags
    exact .items hkinds hlisted htagged hvalues hdealt hagree

end Inversions

/-! ## The matcher -/

/-- Trying the tails one by one succeeds exactly if one of them does: a mismatch on a longer tail
does not hide a match on a shorter one. -/
theorem matchSomeTail_eq_ok_iff {attempt : List Datum → Nat → Except Mismatch Unit}
    {good : List Datum → Prop} (h : ∀ tail index, attempt tail index = .ok () ↔ good tail)
    (items : List Datum) (index : Nat) :
    matchSomeTail attempt items index = .ok () ↔ ∃ run rest, items = run ++ rest ∧ good rest := by
  induction items generalizing index with
  | nil =>
    rw [matchSomeTail, h]
    constructor
    · exact fun hgood => ⟨[], [], rfl, hgood⟩
    · rintro ⟨run, rest, heq, hgood⟩
      rwa [(List.append_eq_nil_iff.mp heq.symm).2] at hgood
  | cons d items ih =>
    rw [matchSomeTail]
    constructor
    · intro hok
      split at hok
      · next hfirst => exact ⟨[], d :: items, rfl, (h _ _).mp hfirst⟩
      · split at hok
        · next hlater =>
          obtain ⟨run, rest, rfl, hgood⟩ := (ih (index + 1)).mp hlater
          exact ⟨d :: run, rest, rfl, hgood⟩
        · cases hok
    · rintro ⟨run, rest, heq, hgood⟩
      cases run with
      | nil =>
        rw [(h (d :: items) index).mpr (heq ▸ hgood)]
      | cons e run =>
        obtain ⟨rfl, rfl⟩ := List.cons.inj heq
        rw [(ih (index + 1)).mpr ⟨run, rest, rfl, hgood⟩]
        split
        · rfl
        · rfl

/-- Two checks one after the other. -/
theorem both_eq_ok {x y : Except Mismatch Unit} : (do x; y) = .ok () ↔ x = .ok () ∧ y = .ok () := by
  rw [bind_eq_ok]
  exact ⟨fun ⟨_, hx, hy⟩ => ⟨hx, hy⟩, fun ⟨hx, hy⟩ => ⟨(), hx, hy⟩⟩

mutual

/-- The path is only for messages. -/
theorem matchAt_eq_ok_iff (pattern actual : Datum) (path : Text) :
    matchAt pattern actual path = .ok () ↔ Matches pattern actual := by
  match pattern with
  | .symbol t =>
    by_cases hwild : t = Text.ofString "_"
    · refine iff_of_true ?_ (matches_wildcard hwild)
      cases actual <;> simp [matchAt, hwild]
    · rw [matches_atom (.symbol t) rfl (fun _ h => Datum.symbol.inj h ▸ hwild)]
      cases actual <;> simp [matchAt, hwild, kind, text]
  | .string t =>
    rw [matches_atom (.string t) rfl (fun _ h => nomatch h)]
    cases actual <;> simp [matchAt, kind, text]
  | .integer t =>
    rw [matches_atom (.integer t) rfl (fun _ h => nomatch h)]
    cases actual <;> simp [matchAt, kind, text]
  | .ellipsis =>
    rw [matches_ellipsis]
    cases actual <;> simp [matchAt]
  | .list patterns tags =>
    rw [matches_listed rfl]
    cases actual with
    | list items tags' =>
      rw [matchAt, both_eq_ok, matchTags_eq_ok_iff tags, matchItems_eq_ok_iff patterns]
      exact (and_iff_right rfl).symm
    | _ => simp [matchAt, kind]
  | .array patterns tags =>
    rw [matches_listed rfl]
    cases actual with
    | array items tags' =>
      rw [matchAt, both_eq_ok, matchTags_eq_ok_iff tags, matchItems_eq_ok_iff patterns]
      exact (and_iff_right rfl).symm
    | _ => simp [matchAt, kind]
  | .map patterns =>
    rw [matches_map]
    cases actual with
    | map entries =>
      rw [matchAt, matchEntries_eq_ok_iff patterns]
      simp
    | _ => simp [matchAt]
  | .foreign number =>
    rw [matches_foreign]
    cases actual <;> simp [matchAt, eq_comm]
termination_by sizeOf pattern
decreasing_by all_goals simp +arith

theorem matchTags_eq_ok_iff (tags : List (Text × Datum)) (actual : Datum) (path : Text) :
    matchTags tags actual path = .ok () ↔ EntriesMatch tags actual.tags := by
  match tags with
  | [] => exact iff_of_true (by rw [matchTags]) entriesMatch_nil
  | (key, pattern) :: rest =>
    rw [entriesMatch_cons, matchTags, tag?]
    cases lookup key actual.tags with
    | none => simp
    | some value =>
      rw [← matchTags_eq_ok_iff rest actual path]
      simp [both_eq_ok, matchAt_eq_ok_iff pattern value]
termination_by sizeOf tags
decreasing_by all_goals simp +arith

/-- Entries are compared in the order of the pattern. -/
theorem matchEntries_eq_ok_iff (patterns entries : List (Text × Datum)) (path : Text) :
    matchEntries patterns entries path = .ok () ↔ EntriesMatch patterns entries := by
  match patterns with
  | [] => exact iff_of_true (by rw [matchEntries]) entriesMatch_nil
  | (key, pattern) :: rest =>
    rw [entriesMatch_cons, matchEntries]
    cases lookup key entries with
    | none => simp
    | some value =>
      rw [← matchEntries_eq_ok_iff rest entries path]
      simp [both_eq_ok, matchAt_eq_ok_iff pattern value]
termination_by sizeOf patterns
decreasing_by all_goals simp +arith

/-- Trying every length for an ellipsis finds a match if there is one. -/
theorem matchItems_eq_ok_iff (patterns items : List Datum) (path : Text) (index : Nat) :
    matchItems patterns items path index = .ok () ↔ ItemsMatch patterns items := by
  match patterns with
  | [] =>
    rw [itemsMatch_nil]
    cases items <;> simp [matchItems]
  | pattern :: patterns =>
    by_cases hellipsis : pattern = .ellipsis
    · rw [hellipsis, itemsMatch_ellipsis, matchItems]
      exact matchSomeTail_eq_ok_iff
        (fun tail index => matchItems_eq_ok_iff patterns tail path index)
        items index
    · rw [itemsMatch_cons hellipsis]
      cases items with
      | nil => simp [matchItems]
      | cons d rest =>
        rw [matchItems, both_eq_ok, matchAt_eq_ok_iff pattern d,
          matchItems_eq_ok_iff patterns rest path (index + 1)]
        · simp
        · exact hellipsis
termination_by sizeOf patterns
decreasing_by all_goals simp +arith

end

/-- **Matching is its meaning.** The matcher accepts a datum exactly if the pattern stands for
it. -/
theorem matches?_iff (pattern actual : Datum) :
    pattern.matches? actual = .ok () ↔ Matches pattern actual :=
  matchAt_eq_ok_iff pattern actual "root"

end WatCompiler.Datum
