import WatCompiler.Datum

/-!
# Writing data

The text of a datum: items separated by one space, the tags of a list after its first item. How a
string is quoted is left to the caller; data that are read back escape quotation marks and
backslashes only.
-/

namespace WatCompiler.Datum

/-- A byte of a string that is read back. -/
def escapeByte (c : UInt8) : Text :=
  if c = Text.byte '\\' || c = Text.byte '"' then [Text.byte '\\', c] else [c]

/-- A string that is read back. -/
def quoteString (t : Text) : Text := "\"" ++ t.flatMap escapeByte ++ "\""

/-- Entries between braces. -/
def braced (entries : List Text) : Text := "\x7b" ++ Text.join ", " entries ++ "\x7d"

/-- The texts of a list's items with the text of its tags, if it has any, after the first. -/
def withTags (items entries : List Text) : List Text :=
  if entries.isEmpty then items
  else match items with
    | [] => ["^" ++ braced entries]
    | first :: rest => first :: ("^" ++ braced entries) :: rest

mutual

/-- The text of a datum whose strings are written by `quote`. -/
def renderWith (quote : Text → Text) : Datum → Text
  | symbol t => t
  | integer t => t
  | string t => quote t
  | ellipsis => "..."
  | list items tags =>
    "(" ++ Text.join " " (withTags (renderItems quote items) (renderEntries quote tags)) ++ ")"
  | map entries => braced (renderEntries quote entries)
  | array items _ => "[" ++ Text.join " " (renderItems quote items) ++ "]"
  | foreign number => "UNKNOWN_NODE_TYPE_" ++ Text.ofInt number

/-- The texts of some data. -/
def renderItems (quote : Text → Text) : List Datum → List Text
  | [] => []
  | d :: rest => renderWith quote d :: renderItems quote rest

/-- The texts of some entries. -/
def renderEntries (quote : Text → Text) : List (Text × Datum) → List Text
  | [] => []
  | (key, d) :: rest => (key ++ ": " ++ renderWith quote d) :: renderEntries quote rest

end

/-- The text of a datum. -/
def render (d : Datum) : Text := renderWith quoteString d

end WatCompiler.Datum
