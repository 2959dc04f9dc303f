import WatCompiler.Text.Printable
import WatCompiler.Text.Utf8

/-!
# Quoted text

Text between quotation marks, as messages and dumps show names and source excerpts. Printable code
points stand for themselves; the mark and the backslash take a backslash; everything else is written
as an escape, and a byte that is not part of a code point as `\x` and two digits.
-/

namespace WatCompiler.Text

/-- A lower-case hexadecimal digit. -/
def hexDigit (n : Nat) : UInt8 := if n < 10 then (48 + n).toUInt8 else (87 + n).toUInt8

/-- The last `width` hexadecimal digits of a number. -/
def hex : (width : Nat) → Nat → Text
  | 0, _ => []
  | width + 1, n => hex width (n / 16) ++ [hexDigit (n % 16)]

/-- The escape of a code point that is not printable. -/
def escapeScalar (code : Nat) : Text :=
  if code = 0x07 then "\\a"
  else if code = 0x08 then "\\b"
  else if code = 0x0c then "\\f"
  else if code = 0x0a then "\\n"
  else if code = 0x0d then "\\r"
  else if code = 0x09 then "\\t"
  else if code = 0x0b then "\\v"
  else if code < 0x20 ∨ code = 0x7f then "\\x" ++ hex 2 code
  else if code < 0x10000 then "\\u" ++ hex 4 code
  else "\\U" ++ hex 8 code

/-- A code point inside quotation marks `mark`. -/
def quoteScalar (mark : UInt8) (code : Nat) : Text :=
  if code = mark.toNat ∨ code = (byte '\\').toNat then byte '\\' :: ofScalar code
  else if isPrintable code then ofScalar code
  else escapeScalar code

/-- A piece of text inside double quotation marks. -/
def quoteFragment : Fragment → Text
  | .scalar code _ => quoteScalar (byte '"') code
  | .damaged c => "\\x" ++ hex 2 c.toNat

/-- The text between double quotation marks. -/
def quote (t : Text) : Text :=
  "\"" ++ (decode t).flatMap quoteFragment ++ "\""

/-- The code point with the number of a byte, between single quotation marks. -/
def quoteByte (c : UInt8) : Text :=
  "'" ++ quoteScalar (byte '\'') c.toNat ++ "'"

end WatCompiler.Text
