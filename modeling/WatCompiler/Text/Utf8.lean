import WatCompiler.Text

/-!
# UTF-8

Decoding one code point at a time from text that may be damaged, and encoding a code point. Only
shortest forms of code points outside the surrogate range decode, so every byte that is part of no
such form stands alone as a damaged byte.
-/

namespace WatCompiler.Text

/-- What the first bytes of a text hold. -/
inductive Fragment
  /-- A code point encoded in `width` bytes. -/
  | scalar (code : Nat) (width : Nat)
  /-- A byte that starts no code point. -/
  | damaged (byte : UInt8)
deriving DecidableEq, Repr

/-- A byte that continues a code point, in the range from `lo` to `hi`. -/
def continues (c : UInt8) (lo hi : Nat) : Bool := lo ≤ c.toNat && c.toNat ≤ hi

/-- The payload of a continuation byte. -/
def payload (c : UInt8) : Nat := c.toNat % 64

/-- The code point at the start of the text `c :: rest`. The range of the second byte excludes
overlong forms, surrogates and code points above `0x10ffff`. -/
def decodeFirst (c : UInt8) (rest : Text) : Fragment :=
  let n := c.toNat
  if n < 0x80 then .scalar n 1
  else if 0xc2 ≤ n && n ≤ 0xdf then
    match rest with
    | c₁ :: _ =>
      if continues c₁ 0x80 0xbf then .scalar (n % 32 * 64 + payload c₁) 2 else .damaged c
    | _ => .damaged c
  else if 0xe0 ≤ n && n ≤ 0xef then
    let lo := if n = 0xe0 then 0xa0 else 0x80
    let hi := if n = 0xed then 0x9f else 0xbf
    match rest with
    | c₁ :: c₂ :: _ =>
      if continues c₁ lo hi && continues c₂ 0x80 0xbf then
        .scalar ((n % 16 * 64 + payload c₁) * 64 + payload c₂) 3
      else .damaged c
    | _ => .damaged c
  else if 0xf0 ≤ n && n ≤ 0xf4 then
    let lo := if n = 0xf0 then 0x90 else 0x80
    let hi := if n = 0xf4 then 0x8f else 0xbf
    match rest with
    | c₁ :: c₂ :: c₃ :: _ =>
      if continues c₁ lo hi && continues c₂ 0x80 0xbf && continues c₃ 0x80 0xbf then
        .scalar (((n % 8 * 64 + payload c₁) * 64 + payload c₂) * 64 + payload c₃) 4
      else .damaged c
    | _ => .damaged c
  else .damaged c

/-- The text cut into code points and damaged bytes. The recursion skips the continuation bytes
that the previous code point has taken. -/
def decodeFrom : (taken : Nat) → Text → List Fragment
  | _, [] => []
  | taken + 1, _ :: rest => decodeFrom taken rest
  | 0, c :: rest =>
    match decodeFirst c rest with
    | .scalar code width => .scalar code width :: decodeFrom (width - 1) rest
    | .damaged c => .damaged c :: decodeFrom 0 rest

/-- The text cut into code points and damaged bytes. -/
def decode (t : Text) : List Fragment := decodeFrom 0 t

/-- The UTF-8 encoding of a code point. -/
def ofScalar (code : Nat) : Text := String.utf8EncodeChar (Char.ofNat code)

end WatCompiler.Text
