import Mathlib.Data.List.Nodup
import WatCompiler.Table

/-!
# Bytes, answers and tables

What it means that a computation with a possible fault ends well, step by step, and what the names
and values of a table are after an entry.
-/

namespace WatCompiler

/-- What holds of a byte can be decided for all of them. -/
instance decidableForallByte (p : UInt8 → Prop) [DecidablePred p] : Decidable (∀ c, p c) :=
  decidable_of_iff (∀ n : Fin 256, p (UInt8.ofFin n))
    ⟨fun h c => h c.toFin, fun h n => h (UInt8.ofFin n)⟩

/-! ## The start of a list -/

/-- The longest prefix with `p` ends where `p` fails first. -/
theorem takeWhile_append_of_all {α : Type} {p : α → Bool} {t rest : List α} (ht : t.all p = true)
    (hrest : ∀ c ∈ rest.head?, p c = false) : (t ++ rest).takeWhile p = t := by
  rw [List.takeWhile_append_of_pos (List.all_eq_true.mp ht)]
  cases rest with
  | nil => exact List.append_nil t
  | cons c more =>
    rw [List.takeWhile_cons_of_neg (Bool.eq_false_iff.mp (hrest c rfl)), List.append_nil]

theorem dropWhile_append_of_all {α : Type} {p : α → Bool} {t rest : List α} (ht : t.all p = true)
    (hrest : ∀ c ∈ rest.head?, p c = false) : (t ++ rest).dropWhile p = rest := by
  rw [List.dropWhile_append_of_pos (List.all_eq_true.mp ht)]
  cases rest with
  | nil => rfl
  | cons c more => exact List.dropWhile_cons_of_neg (Bool.eq_false_iff.mp (hrest c rfl))

/-! ## Answers -/

section Answers

variable {ε ε' α β : Type}

/-- A sequence of two computations ends well if both do. -/
theorem bind_eq_ok {x : Except ε α} {f : α → Except ε β} {b : β} :
    x >>= f = .ok b ↔ ∃ a, x = .ok a ∧ f a = .ok b := by
  cases x with
  | error e => exact ⟨fun h => (nomatch h), fun ⟨_, h, _⟩ => (nomatch h)⟩
  | ok a => exact ⟨fun h => ⟨a, rfl, h⟩, fun ⟨_, h, hf⟩ => by cases h; exact hf⟩

theorem pure_eq_ok {a b : α} : (pure a : Except ε α) = .ok b ↔ a = b :=
  ⟨fun h => by cases h; rfl, fun h => by rw [h]; rfl⟩

/-- What is true of an answer, evaluated without naming the answer. -/
theorem toOption_map_eq_some {x : Except ε α} {f : α → β} {b : β} :
    x.toOption.map f = some b ↔ ∃ a, x = .ok a ∧ f a = b := by
  cases x with
  | error e => exact ⟨fun h => (nomatch h), fun ⟨_, h, _⟩ => (nomatch h)⟩
  | ok a =>
    exact ⟨fun h => ⟨a, rfl, Option.some.inj h⟩,
      fun ⟨_, h, hf⟩ => by cases h; exact congrArg some hf⟩

theorem mapError_eq_ok {x : Except ε α} {f : ε → ε'} {a : α} :
    x.mapError f = .ok a ↔ x = .ok a := by
  cases x with
  | error e => exact ⟨fun h => (nomatch h), fun h => (nomatch h)⟩
  | ok b => exact ⟨fun h => by cases h; rfl, fun h => by cases h; rfl⟩

theorem map_eq_ok {x : Except ε α} {f : α → β} {b : β} :
    x.map f = .ok b ↔ ∃ a, x = .ok a ∧ f a = b := by
  cases x with
  | error e => exact ⟨fun h => (nomatch h), fun ⟨_, h, _⟩ => (nomatch h)⟩
  | ok a => exact ⟨fun h => ⟨a, rfl, by cases h; rfl⟩, fun ⟨_, h, hf⟩ => by cases h; rw [← hf]; rfl⟩

end Answers

/-! ## Tables -/

namespace Table

variable {α : Type}

/-- The names of a table, in their order. -/
def names (t : Table α) : List Text := t.map Prod.fst

/-- Only the inserted name changes its value. -/
theorem find?_insert (t : Table α) (name other : Text) (value : α) :
    find? (insert t name value) other = if other = name then some value else find? t other := by
  by_cases h : other = name
  · rw [if_pos h, h, find?_insert_self]
  · rw [if_neg h, find?_insert_of_ne t value h]

/-- Exactly the names of a table are found. -/
theorem find?_eq_none_iff {t : Table α} {name : Text} : find? t name = none ↔ name ∉ t.names := by
  induction t with
  | nil => simp [find?, names]
  | cons entry rest ih =>
    obtain ⟨key, value⟩ := entry
    by_cases h : key = name
    · simp [find?, names, h]
    · have hn : name ≠ key := fun e => h e.symm
      rw [find?, if_neg h, ih]
      simp [names, hn]

theorem has_iff_mem {t : Table α} {name : Text} : t.has name = true ↔ name ∈ t.names := by
  rw [has, Option.isSome_iff_ne_none, ne_eq, find?_eq_none_iff, not_not]

/-- A new name comes last. -/
theorem insert_of_not_mem {t : Table α} {name : Text} (value : α) (h : name ∉ t.names) :
    insert t name value = t ++ [(name, value)] := by
  induction t with
  | nil => rfl
  | cons entry rest ih =>
    obtain ⟨key, old⟩ := entry
    have hk : key ≠ name := fun e => h (by simp [names, e])
    have hrest : name ∉ names rest := fun e => h (by simp only [names] at e ⊢; simp [e])
    rw [insert, if_neg hk, ih hrest, List.cons_append]

/-- A known name keeps its place. -/
theorem names_insert_of_mem {t : Table α} {name : Text} (value : α) (h : name ∈ t.names) :
    (insert t name value).names = t.names := by
  induction t with
  | nil => simp [names] at h
  | cons entry rest ih =>
    obtain ⟨key, old⟩ := entry
    by_cases hk : key = name
    · simp [insert, names, hk]
    · have hrest : name ∈ names rest := by
        rcases List.mem_cons.mp h with e | e
        · exact absurd e.symm hk
        · exact e
      have := ih hrest
      simp only [names] at this ⊢
      rw [insert, if_neg hk, List.map_cons, List.map_cons, this]

theorem names_append (t u : Table α) : names (t ++ u) = names t ++ names u := List.map_append

/-- A new name comes last, an old one stays where it is. -/
theorem names_insert (t : Table α) (name : Text) (value : α) :
    (insert t name value).names = if name ∈ t.names then t.names else t.names ++ [name] := by
  by_cases h : name ∈ t.names
  · rw [if_pos h, names_insert_of_mem value h]
  · rw [if_neg h, insert_of_not_mem value h, names_append]
    rfl

theorem nodup_names_insert {t : Table α} (name : Text) (value : α) (h : t.names.Nodup) :
    (insert t name value).names.Nodup := by
  rw [names_insert]
  by_cases hn : name ∈ t.names
  · rw [if_pos hn]
    exact h
  · rw [if_neg hn]
    exact List.nodup_append.mpr ⟨h, List.nodup_singleton _, by
      intro a ha b hb e
      rw [List.mem_singleton] at hb
      exact hn (by rw [← hb, ← e]; exact ha)⟩

/-- What is found is an entry. -/
theorem mem_of_find? {t : Table α} {name : Text} {value : α}
    (h : t.find? name = some value) : (name, value) ∈ t := by
  induction t with
  | nil => cases h
  | cons entry rest ih =>
    obtain ⟨key, other⟩ := entry
    rw [find?] at h
    split at h
    · next hkey =>
      cases h
      rw [hkey]
      exact List.mem_cons_self
    · exact List.mem_cons_of_mem _ (ih h)

/-- In a table without repeated names every entry is found. -/
theorem find?_of_mem {t : Table α} (hn : t.names.Nodup) {name : Text} {value : α}
    (h : (name, value) ∈ t) : t.find? name = some value := by
  induction t with
  | nil => cases h
  | cons entry rest ih =>
    obtain ⟨hnew, hrest⟩ := List.nodup_cons.mp hn
    rcases List.mem_cons.mp h with rfl | h
    · rw [find?, if_pos rfl]
    · have hkey : entry.1 ≠ name := fun he => hnew (List.mem_map.mpr ⟨_, h, he.symm⟩)
      rw [find?, if_neg hkey, ih hrest h]

/-- The first table hides the second one. -/
theorem find?_append (t u : Table α) (name : Text) :
    find? (t ++ u) name = (t.find? name <|> find? u name) := by
  induction t with
  | nil => rfl
  | cons entry rest ih =>
    obtain ⟨key, value⟩ := entry
    rw [List.cons_append, find?, find?]
    split
    · rfl
    · exact ih

/-- Two tables give every name the same value. The order of their entries may differ. -/
def Alike (t u : Table α) : Prop := ∀ name, t.find? name = u.find? name

theorem Alike.insert {t u : Table α} (h : t.Alike u) (name : Text) (value : α) :
    (t.insert name value).Alike (u.insert name value) := by
  intro other
  rw [find?_insert, find?_insert, h other]

/-- Without repeated names the order of the entries does not matter. -/
theorem alike_of_perm {t u : Table α} (hn : t.names.Nodup) (h : t.Perm u) : t.Alike u := by
  intro name
  cases hfind : t.find? name with
  | some value =>
    have hn' : u.names.Nodup := (h.map Prod.fst).nodup_iff.mp hn
    exact (find?_of_mem hn' (h.mem_iff.mp (mem_of_find? hfind))).symm
  | none =>
    have hnew : name ∉ u.names := fun hmem =>
      find?_eq_none_iff.mp hfind ((h.map Prod.fst).mem_iff.mpr hmem)
    exact (find?_eq_none_iff.mpr hnew).symm

end Table

end WatCompiler
