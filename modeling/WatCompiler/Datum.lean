import WatCompiler.Text.Decimal

/-!
# S-expression data

The data that module texts, program dumps and match patterns are written in: atoms, lists, arrays
and maps. Lists and arrays can carry tags, values under a name that are not items.
-/

namespace WatCompiler

/-- A datum. -/
inductive Datum
  | symbol (text : Text)
  | string (text : Text)
  | integer (text : Text)
  | ellipsis
  | list (items : List Datum) (tags : List (Text × Datum))
  | map (entries : List (Text × Datum))
  | array (items : List Datum) (tags : List (Text × Datum))
  /-- A datum of a kind that is none of the above, known by number only. -/
  | foreign (kind : Int)
deriving Repr, BEq, Inhabited

namespace Datum

/-- The kinds of data. -/
inductive Kind
  | symbol | string | integer | ellipsis | list | map | array
  | foreign (number : Int)
deriving DecidableEq, Repr

/-- The name of a kind. -/
def Kind.name : Kind → Text
  | symbol => "symbol"
  | string => "string"
  | integer => "integer"
  | ellipsis => "ellipsis"
  | list => "list"
  | map => "map"
  | array => "array"
  | foreign number => "node type " ++ Text.ofInt number

/-- The kind of a datum. -/
def kind : Datum → Kind
  | symbol _ => .symbol
  | string _ => .string
  | integer _ => .integer
  | ellipsis => .ellipsis
  | list _ _ => .list
  | map _ => .map
  | array _ _ => .array
  | foreign number => .foreign number

/-- The text of an atom; other data have none. -/
def text : Datum → Text
  | symbol t | string t | integer t => t
  | _ => []

/-- The items of a list, a map or an array. -/
def items : Datum → List Datum
  | list items _ | array items _ => items
  | map entries => entries.map (·.2)
  | _ => []

/-- The tags of a list or an array. -/
def tags : Datum → List (Text × Datum)
  | list _ tags | array _ tags => tags
  | _ => []

/-- The first value under a name. -/
def lookup (name : Text) : List (Text × Datum) → Option Datum
  | [] => none
  | (key, value) :: rest => if key = name then some value else lookup name rest

/-- The value of a tag. -/
def tag? (d : Datum) (name : Text) : Option Datum := lookup name d.tags

/-- The symbol that a list starts with; empty for all other data. -/
def head : Datum → Text
  | list (symbol t :: _) _ => t
  | _ => []

/-- A list without tags. -/
def form (items : List Datum) : Datum := list items []

end Datum

end WatCompiler
