import WatCompiler.Text

/-!
# Tables keyed by name

A finite map from names to values as a list of entries without repeated names, in the order in which
the names were first entered. Scopes, globals, locals and imports are tables.
-/

namespace WatCompiler

/-- Entries in the order in which their names were first entered. -/
abbrev Table (α : Type) := List (Text × α)

namespace Table

variable {α : Type}

/-- The value under a name. -/
def find? (t : Table α) (name : Text) : Option α :=
  match t with
  | [] => none
  | (key, value) :: rest => if key = name then some value else find? rest name

/-- Whether a name has a value. -/
def has (t : Table α) (name : Text) : Bool := (find? t name).isSome

/-- Gives a name a value, in place of the one it had. -/
def insert (t : Table α) (name : Text) (value : α) : Table α :=
  match t with
  | [] => [(name, value)]
  | (key, old) :: rest =>
    if key = name then (key, value) :: rest else (key, old) :: insert rest name value

@[simp] theorem find?_insert_self (t : Table α) (name : Text) (value : α) :
    find? (insert t name value) name = some value := by
  induction t with
  | nil => simp [insert, find?]
  | cons entry rest ih =>
    obtain ⟨key, old⟩ := entry
    by_cases h : key = name
    · simp [insert, find?, h]
    · simp [insert, find?, h, ih]

/-- Inserting leaves the other names alone. -/
theorem find?_insert_of_ne (t : Table α) {name other : Text} (value : α) (h : other ≠ name) :
    find? (insert t name value) other = find? t other := by
  induction t with
  | nil => simp [insert, find?, h.symm]
  | cons entry rest ih =>
    obtain ⟨key, old⟩ := entry
    by_cases hk : key = name
    · subst hk
      simp [insert, find?, h.symm]
    · simp [insert, find?, hk, ih]

end Table

end WatCompiler
