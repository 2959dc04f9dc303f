/-!
# Text as bytes

Sources, messages and printed output are sequences of bytes. They need not be valid UTF-8, and all
offsets and columns count bytes, so text is a list of bytes throughout and a string literal stands
for its UTF-8 encoding.
-/

namespace WatCompiler

/-- A sequence of bytes. -/
abbrev Text := List UInt8

namespace Text

/-- The UTF-8 encoding of a string. -/
def ofString (s : String) : Text :=
  s.toList.flatMap String.utf8EncodeChar

instance : Coe String Text := ⟨ofString⟩

instance : LawfulBEq Text := inferInstance

/-- The code of an ASCII character. -/
def byte (c : Char) : UInt8 := c.toNat.toUInt8

/-- A line feed, which ends a line. -/
def newline : UInt8 := byte '\n'

/-- A decimal digit. -/
def isDigit (c : UInt8) : Bool := byte '0' ≤ c && c ≤ byte '9'

/-- An ASCII letter. -/
def isAlpha (c : UInt8) : Bool :=
  (byte 'a' ≤ c && c ≤ byte 'z') || (byte 'A' ≤ c && c ≤ byte 'Z')

/-- The texts one after another, with `separator` between neighbours. -/
def join (separator : Text) : List Text → Text
  | [] => []
  | [t] => t
  | t :: rest => t ++ separator ++ join separator rest

/-- The bytes from offset `start` up to `stop`. -/
def slice (t : Text) (start stop : Nat) : Text := (t.drop start).take (stop - start)

/-- The number of bytes of the first line, its line feed included. -/
def lineLength : Text → Nat
  | [] => 0
  | c :: rest => if c = newline then 1 else lineLength rest + 1

end Text

end WatCompiler
