import Mathlib.Logic.Relation
import WatCompiler.Proofs.Datum.Matching
import WatCompiler.Proofs.Datum.WellFormed

/-!
# Data as patterns of themselves

A datum that was read from a text matches itself, unless one of its maps gives a key a second value
that does not match the first one: a map is searched for the first value of a key, so a second one
is compared with the first and not with itself (`matches?_self_iff`). The tags of a list are entered
with the last value that they are given, and so they always match themselves.

An ellipsis as a pattern could be dealt items in other ways than one by one, and a wildcard or an
ellipsis could take the place of an item that does not match itself. But lists, arrays and maps
stand for nothing but lists, arrays and maps, there are as many of them among the items as among the
patterns, and they come in the same order. So each of them is dealt to itself
(`itemsMatch_self_iff`).
-/

namespace WatCompiler.Datum

/-! ## Items -/

/-- Lists, arrays and maps. -/
def isCompound (d : Datum) : Bool := d.kind.isListed || d.kind = .map

section Items

variable {patterns items : List Datum} {pattern d : Datum}

/-- A compound pattern matches only its own kind. -/
theorem kind_eq_of_matches (hcompound : pattern.isCompound = true) (h : Matches pattern d) :
    pattern.kind = d.kind := by
  cases h with
  | wildcard => cases hcompound
  | atom kinds => exact kinds
  | ellipsis => rfl
  | items kinds => exact kinds
  | map => rfl
  | foreign => rfl

/-- A datum without parts matches itself. -/
theorem matches_self_of_not_isCompound (h : d.isCompound = false) : Matches d d := by
  cases d with
  | symbol | string | integer => exact .atom rfl rfl rfl
  | ellipsis => exact .ellipsis
  | foreign number => exact .foreign number
  | list | array | map => cases h

/-- The lists, arrays and maps among patterns stand for some of those among the items, in their
order. -/
theorem exists_sublist_of_itemsMatch (h : ItemsMatch patterns items) :
    ∃ chosen, chosen.Sublist (items.filter isCompound) ∧
      List.Forall₂ Matches (patterns.filter isCompound) chosen := by
  induction patterns generalizing items with
  | nil => exact ⟨[], List.nil_sublist _, .nil⟩
  | cons pattern patterns ih =>
    by_cases hellipsis : pattern = .ellipsis
    · subst hellipsis
      obtain ⟨run, rest, rfl, hrest⟩ := itemsMatch_ellipsis.mp h
      obtain ⟨chosen, hsublist, hmatch⟩ := ih hrest
      refine ⟨chosen, ?_, hmatch⟩
      rw [List.filter_append]
      exact hsublist.trans (List.sublist_append_right _ _)
    · obtain ⟨d, rest, rfl, hfirst, hrest⟩ := (itemsMatch_cons hellipsis).mp h
      obtain ⟨chosen, hsublist, hmatch⟩ := ih hrest
      by_cases hcompound : pattern.isCompound = true
      · have hd : d.isCompound = true := by
          rw [isCompound, ← kind_eq_of_matches hcompound hfirst]
          exact hcompound
        rw [List.filter_cons_of_pos hcompound, List.filter_cons_of_pos hd]
        exact ⟨d :: chosen, hsublist.cons_cons d, .cons hfirst hmatch⟩
      · rw [List.filter_cons_of_neg hcompound]
        exact ⟨chosen, hsublist.trans ((List.sublist_cons_self d rest).filter _), hmatch⟩

/-- **Items match themselves one by one, or not at all.** -/
theorem itemsMatch_self_iff : ItemsMatch items items ↔ ∀ i ∈ items, Matches i i := by
  constructor
  · intro h i hi
    obtain ⟨chosen, hsublist, hmatch⟩ := exists_sublist_of_itemsMatch h
    -- As many are chosen as there are, so they are all of them.
    rw [hsublist.eq_of_length hmatch.length_eq.symm] at hmatch
    by_cases hcompound : i.isCompound = true
    · exact List.forall₂_same.mp hmatch i (List.mem_filter.mpr ⟨hi, hcompound⟩)
    · exact matches_self_of_not_isCompound (Bool.eq_false_iff.mpr hcompound)
  · intro h
    induction items with
    | nil => exact itemsMatch_nil.mpr rfl
    | cons d rest ih =>
      obtain ⟨hd, hrest⟩ := List.forall_mem_cons.mp h
      by_cases hellipsis : d = .ellipsis
      · rw [hellipsis]
        exact itemsMatch_ellipsis.mpr ⟨[.ellipsis], rest, rfl, ih hrest⟩
      · exact (itemsMatch_cons hellipsis).mpr ⟨d, rest, rfl, hd, ih hrest⟩

end Items

/-! ## Entries -/

/-- The value `later` stands under a key that has the value `first` already. -/
def Repeats (entries : List (Text × Datum)) (later first : Datum) : Prop :=
  ∃ front key back, entries = front ++ (key, later) :: back ∧ lookup key front = some first

section Entries

variable {entries : List (Text × Datum)}

theorem lookup_eq_find? (key : Text) (entries : List (Text × Datum)) :
    lookup key entries = Table.find? entries key := by
  induction entries with
  | nil => rfl
  | cons entry rest ih => rw [lookup, Table.find?, ih]

/-- The first entry under a key counts. -/
theorem lookup_append (key : Text) (front back : List (Text × Datum)) :
    lookup key (front ++ back) = (lookup key front <|> lookup key back) := by
  simp only [lookup_eq_find?, Table.find?_append]

/-- Entries match themselves if first values do, and later values of a key match its first one. -/
theorem entriesMatch_self_iff :
    EntriesMatch entries entries ↔
      (∀ key value, lookup key entries = some value → Matches value value) ∧
      ∀ later first, Repeats entries later first → Matches later first := by
  constructor
  · intro h
    refine ⟨fun key value hvalue => ?_, ?_⟩
    · have hmem : (key, value) ∈ entries :=
        Table.mem_of_find? (lookup_eq_find? key entries ▸ hvalue)
      obtain ⟨first, hfirst, hmatch⟩ := h key value hmem
      cases hvalue.symm.trans hfirst
      exact hmatch
    · rintro later first ⟨front, key, back, rfl, hfront⟩
      obtain ⟨value, hvalue, hmatch⟩ := h key later (List.mem_append_right _ List.mem_cons_self)
      rw [lookup_append, hfront] at hvalue
      cases hvalue
      exact hmatch
  · rintro ⟨hfirsts, hlaters⟩ key p hmem
    obtain ⟨front, back, rfl⟩ := List.append_of_mem hmem
    cases hfront : lookup key front with
    | some first =>
      refine ⟨first, ?_, hlaters p first ⟨front, key, back, rfl, hfront⟩⟩
      rw [lookup_append, hfront]
      rfl
    | none =>
      have hp : lookup key (front ++ (key, p) :: back) = some p := by
        rw [lookup_append, hfront, lookup, if_pos rfl]
        rfl
      exact ⟨p, hp, hfirsts key p hp⟩

/-- Under different keys no value hides another. -/
theorem not_repeats (h : (Table.names entries).Nodup) (later first : Datum) :
    ¬ Repeats entries later first := by
  rintro ⟨front, key, back, rfl, hfront⟩
  rw [Table.names_append] at h
  have hmem : (key, first) ∈ front := Table.mem_of_find? (lookup_eq_find? key front ▸ hfront)
  exact (List.nodup_append.mp h).2.2 key (List.mem_map_of_mem hmem) key List.mem_cons_self rfl

end Entries

/-! ## Data -/

/-- The parts of a datum that a pattern is compared with: items, the values of tags, and the first
values of keys. -/
inductive Part : (whole part : Datum) → Prop
  | item {d i : Datum} (listed : d.kind.isListed = true) (h : i ∈ d.items) : Part d i
  | tag {d value : Datum} {key : Text} (h : d.tag? key = some value) : Part d value
  | entry {entries : List (Text × Datum)} {key : Text} {value : Datum}
      (h : lookup key entries = some value) : Part (.map entries) value

/-- In all maps that are compared, the later values of a key match the first one. -/
def Consistent (d : Datum) : Prop :=
  ∀ entries, Relation.ReflTransGen Part d (.map entries) →
    ∀ later first, Repeats entries later first → later.matches? first = .ok ()

section Data

variable {d e : Datum}

theorem WellFormed.nodup_tags (h : d.WellFormed) : (Table.names d.tags).Nodup := by
  cases d with
  | list items tags => exact h.2.2
  | array items given =>
    rw [Datum.tags, h.2]
    exact List.nodup_nil
  | _ => exact List.nodup_nil

/-- Parts of what can be written can be written. -/
theorem WellFormed.of_part (h : d.WellFormed) (hpart : Part d e) : e.WellFormed := by
  have hentries : ∀ {entries : List (Text × Datum)}, EntriesWellFormed entries →
      ∀ {key value}, lookup key entries = some value → value.WellFormed := by
    intro entries hentries key value hvalue
    rw [lookup_eq_find?] at hvalue
    exact (entriesWellFormed_iff.mp hentries _ (Table.mem_of_find? hvalue)).2
  cases hpart with
  | item listed hmem => exact h.items e hmem
  | tag hvalue =>
    cases d with
    | list items tags => exact hentries h.2.1 hvalue
    | array items given =>
      rw [tag?, Datum.tags, h.2] at hvalue
      cases hvalue
    | _ => cases hvalue
  | entry hvalue => exact hentries h hvalue

theorem isListed_of_tag? {key : Text} (h : d.tag? key = some e) : d.kind.isListed = true := by
  cases d with
  | list | array => rfl
  | _ => cases h

theorem sizeOf_lt_of_lookup {entries : List (Text × Datum)} {key : Text}
    (h : lookup key entries = some e) : sizeOf e < sizeOf entries := by
  rw [lookup_eq_find?] at h
  have hmem := List.sizeOf_lt_of_mem (Table.mem_of_find? h)
  rw [Prod.mk.sizeOf_spec] at hmem
  omega

/-- Parts are smaller. -/
theorem sizeOf_lt_of_part (h : Part d e) : sizeOf e < sizeOf d := by
  cases h with
  | item listed hmem =>
    have hitems := List.sizeOf_lt_of_mem hmem
    cases d with
    | list items tags =>
      rw [list.sizeOf_spec]
      exact Nat.lt_of_lt_of_le hitems (by rw [Datum.items]; omega)
    | array items tags =>
      rw [array.sizeOf_spec]
      exact Nat.lt_of_lt_of_le hitems (by rw [Datum.items]; omega)
    | _ => cases listed
  | tag hvalue =>
    have htags := sizeOf_lt_of_lookup hvalue
    cases d with
    | list items tags =>
      rw [list.sizeOf_spec]
      exact Nat.lt_of_lt_of_le htags (by rw [Datum.tags]; omega)
    | array items tags =>
      rw [array.sizeOf_spec]
      exact Nat.lt_of_lt_of_le htags (by rw [Datum.tags]; omega)
    | _ => cases hvalue
  | entry hvalue =>
    have hentries := sizeOf_lt_of_lookup hvalue
    rw [map.sizeOf_spec]
    omega

theorem matches_map_self {entries : List (Text × Datum)} :
    Matches (.map entries) (.map entries) ↔ EntriesMatch entries entries := by
  rw [matches_map]
  constructor
  · rintro ⟨_, heq, h⟩
    cases heq
    exact h
  · exact fun h => ⟨entries, rfl, h⟩

/-- What a datum needs to match itself: that its parts do, and that no map says otherwise. -/
theorem matches_self_iff_parts (h : d.WellFormed) :
    Matches d d ↔ (∀ e, Part d e → Matches e e) ∧
      ∀ entries, d = .map entries → ∀ later first, Repeats entries later first →
        Matches later first := by
  constructor
  · intro hself
    refine ⟨fun e hpart => ?_, ?_⟩
    · cases hpart with
      | item listed hmem =>
        obtain ⟨-, -, hitems⟩ := (matches_listed listed).mp hself
        exact itemsMatch_self_iff.mp hitems e hmem
      | tag hvalue =>
        obtain ⟨-, htags, -⟩ := (matches_listed (isListed_of_tag? hvalue)).mp hself
        exact (entriesMatch_self_iff.mp htags).1 _ e hvalue
      | entry hvalue => exact (entriesMatch_self_iff.mp (matches_map_self.mp hself)).1 _ e hvalue
    · rintro entries rfl
      exact (entriesMatch_self_iff.mp (matches_map_self.mp hself)).2
  · rintro ⟨hparts, hmap⟩
    cases hcompound : d.isCompound with
    | false => exact matches_self_of_not_isCompound hcompound
    | true =>
      rcases Bool.or_eq_true_iff.mp hcompound with hlisted | hkind
      · refine (matches_listed hlisted).mpr ⟨rfl, entriesMatch_self_iff.mpr ⟨?_, ?_⟩, ?_⟩
        · exact fun key value hvalue => hparts value (.tag hvalue)
        · exact fun later first hrepeats => absurd hrepeats (not_repeats h.nodup_tags later first)
        · exact itemsMatch_self_iff.mpr fun i hi => hparts i (.item hlisted hi)
      · cases d with
        | map entries =>
          refine matches_map_self.mpr (entriesMatch_self_iff.mpr ⟨?_, hmap entries rfl⟩)
          exact fun key value hvalue => hparts value (.entry hvalue)
        | _ => cases hkind

/-- **A datum matches itself exactly if its maps are consistent.** -/
theorem matches_self_iff_consistent (h : d.WellFormed) : Matches d d ↔ d.Consistent := by
  constructor
  · intro hself entries hpath
    -- Along the way to the map everything matches itself.
    induction hpath using Relation.ReflTransGen.head_induction_on with
    | refl =>
      intro later first hrepeats
      exact (matchAt_eq_ok_iff later first _).mpr
        (((matches_self_iff_parts h).mp hself).2 entries rfl later first hrepeats)
    | head hpart _ ih =>
      exact ih (h.of_part hpart) (((matches_self_iff_parts h).mp hself).1 _ hpart)
  · -- Conversely by induction on the size, since parts are smaller.
    intro hconsistent
    induction hn : sizeOf d using Nat.strongRecOn generalizing d with
    | ind n ih =>
      refine (matches_self_iff_parts h).mpr ⟨fun e hpart => ?_, ?_⟩
      · exact ih _ (hn ▸ sizeOf_lt_of_part hpart) (h.of_part hpart)
          (fun entries hpath => hconsistent entries (.head hpart hpath)) rfl
      · rintro entries rfl later first hrepeats
        exact (matchAt_eq_ok_iff later first _).mp (hconsistent entries .refl later first hrepeats)

end Data

/-- **Data as patterns of themselves.** A datum that was read from a text matches itself exactly if
in its maps every later value of a key matches the first one. So it does if no map repeats a key. -/
theorem matches?_self_iff {t : Text} {d : Datum} (h : parse t = .ok d) :
    (d.matches? d = .ok () ↔ d.Consistent) ∧
      ((∀ entries, Relation.ReflTransGen Part d (.map entries) → (Table.names entries).Nodup) →
        d.matches? d = .ok ()) := by
  have hself : d.matches? d = .ok () ↔ d.Consistent :=
    (matchAt_eq_ok_iff d d _).trans (matches_self_iff_consistent (wellFormed_of_parse h))
  refine ⟨hself, fun hnames => hself.mpr fun entries hpath later first hrepeats => ?_⟩
  exact absurd hrepeats (not_repeats (hnames entries hpath) later first)

/-- Ellipses and wildcards among items, a tag that is given twice, and a key whose second value is a
wildcard. -/
def wildText : Text := "(... ^\x7ba: 1\x7d _ \x7bk: [...], k: _\x7d ... ^\x7ba: 2\x7d ())"

/-- What this text says is consistent, since it matches itself. -/
theorem matches?_self_iff_wildText : ∃ d, parse wildText = .ok d ∧ d.Consistent := by
  have hself : (parse wildText).toOption.map (fun d => (d.matches? d).toOption) =
      some (some ()) := by
    decide +kernel
  obtain ⟨d, hd, hmatch⟩ := toOption_map_eq_some.mp hself
  refine ⟨d, hd, (matches?_self_iff hd).1.mp ?_⟩
  cases hresult : d.matches? d with
  | ok _ => rfl
  | error mismatch =>
    rw [hresult] at hmatch
    cases hmatch

/-- A map that gives a key two values. -/
def twiceText : Text := "\x7ba: 1, a: 2\x7d"

/-- The map does not match itself. -/
theorem twiceText_mismatch : ∃ d, parse twiceText = .ok d ∧ d.matches? d ≠ .ok () := by
  have hself : (parse twiceText).toOption.map (fun d => (d.matches? d).toOption) = some none := by
    decide +kernel
  obtain ⟨d, hd, hmatch⟩ := toOption_map_eq_some.mp hself
  refine ⟨d, hd, fun h => ?_⟩
  rw [h] at hmatch
  cases hmatch

end WatCompiler.Datum
