import WatCompiler.Program
import WatCompiler.Table

/-!
# Scopes

What the names in a program mean while one of its parts is checked: the global variables, the
functions, and inside a function its parameters and local variables and the type that it returns.
-/

namespace WatCompiler

/-- The types of a function's parameters and of its result. -/
structure Signature where
  params : List Ty
  returns : Ty
deriving DecidableEq, Repr

/-- The functions that every program can call. -/
def builtins : Table Signature :=
  [("print", ⟨[.any], .none⟩),
    ("abs", ⟨[.int], .int⟩),
    ("min", ⟨[.int, .int], .int⟩),
    ("max", ⟨[.int, .int], .int⟩),
    ("pow", ⟨[.int, .int], .int⟩)]

/-- What names mean. At the top level there are no locals; the return type then means nothing. -/
structure Scope where
  globals : Table Ty
  functions : Table Signature
  locals : Option (Table Ty)
  returns : Ty
deriving DecidableEq, Repr

namespace Scope

/-- The scope of an empty program. -/
def initial : Scope := ⟨[], builtins, none, .other []⟩

/-- Adds a global variable. -/
def withGlobal (s : Scope) (name : Text) (type : Ty) : Scope :=
  { s with globals := s.globals.insert name type }

/-- Adds a function. -/
def withFunction (s : Scope) (name : Text) (signature : Signature) : Scope :=
  { s with functions := s.functions.insert name signature }

/-- Adds a parameter or a local variable. -/
def withLocal (s : Scope) (name : Text) (type : Ty) : Scope :=
  { s with locals := some (Table.insert (s.locals.getD []) name type) }

/-- Enters a function with a given return type; it has no locals yet. -/
def enter (s : Scope) (returns : Ty) : Scope := { s with locals := some [], returns := returns }

/-- Whether this is the scope of a function's body. -/
def inFunction (s : Scope) : Bool := s.locals.isSome

/-- The type of a parameter or local variable. -/
def local? (s : Scope) (name : Text) : Option Ty := s.locals.bind fun table => table.find? name

/-- The type of a variable: that of the local one if there is one, otherwise of the global one. -/
def lookup? (s : Scope) (name : Text) : Option Ty := s.local? name <|> s.globals.find? name

end Scope

end WatCompiler
