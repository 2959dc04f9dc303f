import WatCompiler.Text

/-!
# Decimal numerals

Writing natural numbers and integers in decimal, and reading a signed numeral that has to fit in
32 bits. Reading goes from left to right and stops at the first byte that decides the answer, so a
numeral that is already too large is out of range whatever follows.
-/

namespace WatCompiler.Text

/-- The digit of a number below ten. -/
def digit (n : Nat) : UInt8 := (48 + n).toUInt8

/-- The decimal numeral of a natural number, without leading zeros. -/
def ofNat (n : Nat) : Text :=
  if n < 10 then [digit n] else ofNat (n / 10) ++ [digit (n % 10)]

/-- The decimal numeral of an integer, with a leading minus sign when it is negative. -/
def ofInt (i : Int) : Text :=
  if i < 0 then byte '-' :: ofNat i.natAbs else ofNat i.natAbs

/-- Why a text is not the numeral of a 32-bit integer. -/
inductive NumeralFault
  /-- There is no digit, or a byte that is no digit. -/
  | malformed
  /-- The value does not fit in 32 bits. -/
  | outOfRange
deriving DecidableEq, Repr

/-- The wording of a fault. -/
def NumeralFault.message : NumeralFault → Text
  | .malformed => "invalid syntax"
  | .outOfRange => "value out of range"

/-- The least magnitude that takes more than 32 bits. -/
def magnitudeLimit : Nat := 4294967296

/-- The magnitude of the least 32-bit integer. -/
def leastMagnitude : Nat := 2147483648

/-- Appends the digits of a text to the magnitude `value` read so far. A magnitude of more than 32
bits is refused at the digit that makes it so. -/
def readMagnitude (value : Nat) : Text → Except NumeralFault Nat
  | [] => .ok value
  | c :: rest =>
    if isDigit c then
      let next := value * 10 + (c.toNat - 48)
      if next < magnitudeLimit then readMagnitude next rest else .error .outOfRange
    else .error .malformed

/-- Reads the magnitude of a non-empty text of digits. -/
def readDigits (t : Text) : Except NumeralFault Nat :=
  if t.isEmpty then .error .malformed else readMagnitude 0 t

/-- Reads a decimal numeral with an optional sign as a 32-bit integer. -/
def readInt32 (t : Text) : Except NumeralFault Int32 :=
  match t with
  | [] => .error .malformed
  | c :: rest =>
    if c = byte '-' then do
      let n ← readDigits rest
      if n ≤ leastMagnitude then pure (Int32.ofInt (-n)) else throw .outOfRange
    else do
      let n ← readDigits (if c = byte '+' then rest else t)
      if n < leastMagnitude then pure (Int32.ofInt n) else throw .outOfRange

end WatCompiler.Text
