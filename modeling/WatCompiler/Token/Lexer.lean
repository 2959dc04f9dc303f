import WatCompiler.Position
import WatCompiler.Text.Quoted
import WatCompiler.Token

/-!
# From source text to tokens

The lexer reads a source from left to right. One step takes at least one byte, or settles the
indentation of a line, and yields the tokens found on the way. At the start of a line outside
brackets the margin is compared with the indentations that are open; blank lines and lines that hold
only a comment are passed over whole. Inside brackets line ends mean nothing.
-/

namespace WatCompiler

namespace Token

/-- Why a text is not a sequence of tokens. -/
inductive Fault
  | unexpectedIndent
  | unmatchedUnindent
  | unexpectedCharacter (c : UInt8)
  | unclosedBracket
  | malformedNumber
  | leadingZeros (numeral : Text)
  | unterminatedString
deriving DecidableEq, Repr

/-- The wording of a fault. -/
def Fault.message : Fault → Text
  | .unexpectedIndent => "unexpected indent"
  | .unmatchedUnindent => "unindent does not match any outer indentation level"
  | .unexpectedCharacter c => "unexpected character " ++ Text.quoteByte c
  | .unclosedBracket => "unexpected end of input inside brackets"
  | .malformedNumber => "invalid number literal"
  | .leadingZeros numeral =>
    "invalid number literal " ++ numeral ++ ": leading zeros are not allowed"
  | .unterminatedString => "unterminated string literal"

end Token

/-- A lexer in the middle of a source. -/
structure Lexer where
  /-- What is left of the source. -/
  rest : Text
  /-- The offset at which `rest` starts. -/
  offset : Nat
  /-- Whether the margin of the current line has still to be measured. -/
  atLineStart : Bool
  /-- The number of open brackets. -/
  depth : Nat
  /-- The widths of the open indentations, innermost first. Below them lies width zero. -/
  indents : List Nat
  /-- The sort of the last token. -/
  last : Option Token.Kind
deriving Repr

namespace Lexer

open Token (Fault Kind)

/-- The start of a source. -/
def start (source : Text) : Lexer := ⟨source, 0, true, 0, [], none⟩

/-- A fault at the byte with a given offset. -/
structure Failure where
  fault : Fault
  offset : Nat
deriving DecidableEq, Repr

/-- What a step yields: the tokens it found and the lexer after it. -/
abbrev Progress := Except Failure (List Token × Lexer)

/-- Passes over `n` bytes. -/
def skip (l : Lexer) (n : Nat) : Lexer :=
  { l with rest := l.rest.drop n, offset := l.offset + n }

/-- The token of the next `n` bytes. -/
def token (l : Lexer) (kind : Kind) (n : Nat) : Token :=
  ⟨kind, l.rest.take n, l.offset, l.offset + n⟩

/-- Takes the next `n` bytes as one token. -/
def take (l : Lexer) (kind : Kind) (n : Nat) : Progress :=
  .ok ([l.token kind n], { l.skip n with last := some kind })

/-- The token that ends a logical line with the next `n` bytes, unless the last token has ended it
already. -/
def lineEnd (l : Lexer) (n : Nat) : List Token :=
  match l.last with
  | none | some .newline | some .indent | some .dedent => []
  | _ => [l.token .newline n]

/-- A byte of a margin. -/
def isMargin (c : UInt8) : Bool := c = Text.byte ' ' || c = Text.byte '\t'

/-- The width of a margin; a tab goes to the next multiple of eight. -/
def marginWidth (margin : Text) : Nat :=
  margin.foldl (fun width c => if c = Text.byte ' ' then width + 1 else width + (8 - width % 8)) 0

/-- A line that starts so, after its margin, holds no token. -/
def isSkipped (c : UInt8) : Bool :=
  c = Text.newline || c = Text.byte '\r' || c = Text.byte '#'

/-- Settles the indentation of a line whose margin has `n` bytes and a given width. -/
def indentTo (l : Lexer) (n width : Nat) : Progress :=
  let inside := { l.skip n with atLineStart := false }
  if l.indents.headD 0 < width then
    if l.last.isNone then .error ⟨.unexpectedIndent, l.offset + n⟩
    else .ok ([l.token .indent n],
      { inside with indents := width :: l.indents, last := some .indent })
  else
    let closed := l.indents.takeWhile (width < ·)
    let kept := l.indents.dropWhile (width < ·)
    if kept.headD 0 = width then
      .ok (closed.map fun _ => (l.skip n).token .dedent 0,
        { inside with
          indents := kept
          last := if closed.isEmpty then l.last else some .dedent })
    else .error ⟨.unmatchedUnindent, l.offset + n⟩

/-- A step at the start of a line. -/
def lineStart (l : Lexer) : Progress :=
  let margin := l.rest.takeWhile isMargin
  match l.rest.dropWhile isMargin with
  | [] => .ok ([], l.skip margin.length)
  | c :: after =>
    if isSkipped c then .ok ([], l.skip (margin.length + Text.lineLength (c :: after)))
    else l.indentTo margin.length (marginWidth margin)

/-- Bytes that separate tokens within a line. -/
def isBlank (c : UInt8) : Bool :=
  c = Text.byte ' ' || c = Text.byte '\t' || c = Text.byte '\r' || c = Text.byte '\x0c'

/-- The first byte of a name. -/
def isNameStart (c : UInt8) : Bool := Text.isAlpha c || c = Text.byte '_'

/-- A byte of a name. -/
def isNameByte (c : UInt8) : Bool := isNameStart c || Text.isDigit c

/-- Takes a number. -/
def number (l : Lexer) : Progress :=
  let digits := l.rest.takeWhile Text.isDigit
  match l.rest.dropWhile Text.isDigit with
  | c :: _ =>
    if isNameStart c || c = Text.byte '.' then .error ⟨.malformedNumber, l.offset⟩
    else checked digits
  | [] => checked digits
where
  /-- A numeral with a leading zero has to be all zeros. -/
  checked (digits : Text) : Progress :=
    if digits.head? = some (Text.byte '0') && digits.any (· ≠ Text.byte '0') then
      .error ⟨.leadingZeros digits, l.offset⟩
    else l.take .int digits.length

/-- Takes a name or a keyword. -/
def word (l : Lexer) : Progress :=
  let name := l.rest.takeWhile isNameByte
  match Keyword.ofText? name with
  | some k => l.take (.keyword k) name.length
  | none => l.take .ident name.length

/-- The number of bytes up to and including the closing quotation mark `mark` of a string whose
opening mark has been read. A backslash takes the next byte with it, whatever that is. -/
def stringLength? (mark : UInt8) : Text → Option Nat
  | [] => none
  | c :: rest =>
    if c = Text.newline then none
    else if c = Text.byte '\\' then
      match rest with
      | [] => none
      | _ :: rest => (stringLength? mark rest).map (· + 2)
    else if c = mark then some 1
    else (stringLength? mark rest).map (· + 1)

/-- Takes a string that opens with `mark`. -/
def string (l : Lexer) (mark : UInt8) : Progress :=
  match stringLength? mark (l.rest.drop 1) with
  | some n => l.take .string (n + 1)
  | none => .error ⟨.unterminatedString, l.offset⟩

/-- The bracket depth after an operator. -/
def depthAfter (depth : Nat) : Operator → Nat
  | .leftParen | .leftBracket => depth + 1
  | .rightParen | .rightBracket => depth - 1
  | _ => depth

/-- Takes an operator; nothing else can stand where `c` stands. -/
def operator (l : Lexer) (c : UInt8) : Progress :=
  match Operator.first? l.rest with
  | some o => { l with depth := depthAfter l.depth o }.take (.op o) o.text.length
  | none => .error ⟨.unexpectedCharacter c, l.offset⟩

/-- A step within a line, whose next byte is `c`. -/
def withinLine (l : Lexer) (c : UInt8) : Progress :=
  if isBlank c || (c = Text.newline && 0 < l.depth) then .ok ([], l.skip 1)
  else if c = Text.byte '#' then
    .ok ([], l.skip (l.rest.takeWhile (· ≠ Text.newline)).length)
  else if c = Text.byte '\\' && l.rest[1]? = some Text.newline then .ok ([], l.skip 2)
  else if c = Text.newline then
    let ended := l.lineEnd 1
    .ok (ended, { l.skip 1 with
      atLineStart := true
      last := if ended.isEmpty then l.last else some .newline })
  else if Text.isDigit c then l.number
  else if isNameStart c then l.word
  else if c = Text.byte '"' || c = Text.byte '\'' then l.string c
  else l.operator c

/-- One step of a lexer whose next byte is `c`. -/
def step (l : Lexer) (c : UInt8) : Progress :=
  if l.atLineStart then l.lineStart else l.withinLine c

/-- The tokens at the end of the source: the last line ends, the open indentations close. -/
def finish (l : Lexer) : Except Failure (List Token) :=
  if 0 < l.depth then .error ⟨.unclosedBracket, l.offset⟩
  else .ok (l.lineEnd 0 ++ l.indents.map (fun _ => l.token .dedent 0) ++ [l.token .endOfInput 0])

/-- The bytes that are left, doubled, and one more while a margin has to be measured: what every
step makes smaller. -/
def remaining (l : Lexer) : Nat := 2 * l.rest.length + l.atLineStart.toNat

/-- A token that is not empty leaves less to read. -/
theorem take_remaining_lt {l l' : Lexer} {kind : Kind} {n : Nat} {found : List Token}
    (h : l.take kind n = .ok (found, l')) (hn : 0 < n) (hl : 0 < l.rest.length) :
    l'.remaining < l.remaining := by
  simp only [take, Except.ok.injEq, Prod.mk.injEq] at h
  obtain ⟨-, rfl⟩ := h
  simp only [remaining, skip, List.length_drop]
  omega

theorem skip_remaining_lt {l : Lexer} {n : Nat} (hn : 0 < n) (hl : 0 < l.rest.length) :
    (l.skip n).remaining < l.remaining := by
  simp only [remaining, skip, List.length_drop]
  omega

/-- Indentation may be empty, but behind it the line is no longer at its start. -/
theorem indentTo_remaining_lt {l l' : Lexer} {n width : Nat} {found : List Token}
    (h : l.indentTo n width = .ok (found, l')) (hl : l.atLineStart = true) :
    l'.remaining < l.remaining := by
  simp only [indentTo] at h
  split at h
  · split at h
    · cases h
    · simp only [Except.ok.injEq, Prod.mk.injEq] at h
      obtain ⟨-, rfl⟩ := h
      simp only [remaining, skip, List.length_drop, hl, Bool.toNat_true, Bool.toNat_false]
      omega
  · split at h
    · simp only [Except.ok.injEq, Prod.mk.injEq] at h
      obtain ⟨-, rfl⟩ := h
      simp only [remaining, skip, List.length_drop, hl, Bool.toNat_true, Bool.toNat_false]
      omega
    · cases h

/-- The start of a line is passed, or the whole line is. -/
theorem lineStart_remaining_lt {l l' : Lexer} {found : List Token}
    (h : l.lineStart = .ok (found, l')) (hl : l.atLineStart = true) (hr : 0 < l.rest.length) :
    l'.remaining < l.remaining := by
  simp only [lineStart] at h
  split at h
  · next hdrop =>
    simp only [Except.ok.injEq, Prod.mk.injEq] at h
    obtain ⟨-, rfl⟩ := h
    refine skip_remaining_lt ?_ hr
    have := congrArg List.length (List.takeWhile_append_dropWhile (p := isMargin) (l := l.rest))
    rw [hdrop] at this
    simp only [List.append_nil] at this
    omega
  · next c after hdrop =>
    split at h
    · simp only [Except.ok.injEq, Prod.mk.injEq] at h
      obtain ⟨-, rfl⟩ := h
      refine skip_remaining_lt ?_ hr
      simp only [Text.lineLength]
      split <;> omega
    · exact indentTo_remaining_lt h hl

/-- A numeral has at least the digit that it was recognized by. -/
theorem number_remaining_lt {l l' : Lexer} {c : UInt8} {after : Text} {found : List Token}
    (h : l.number = .ok (found, l')) (hr : l.rest = c :: after) (hc : Text.isDigit c = true) :
    l'.remaining < l.remaining := by
  have hlen : 0 < (l.rest.takeWhile Text.isDigit).length := by simp [hr, hc]
  have hpos : 0 < l.rest.length := by simp [hr]
  have hchecked : number.checked l (l.rest.takeWhile Text.isDigit) = .ok (found, l') := by
    simp only [number] at h
    split at h
    · split at h
      · cases h
      · exact h
    · exact h
  simp only [number.checked] at hchecked
  split at hchecked
  · cases hchecked
  · exact take_remaining_lt hchecked hlen hpos

/-- A word has at least the byte that it was recognized by. -/
theorem word_remaining_lt {l l' : Lexer} {c : UInt8} {after : Text} {found : List Token}
    (h : l.word = .ok (found, l')) (hr : l.rest = c :: after) (hc : isNameStart c = true) :
    l'.remaining < l.remaining := by
  have hlen : 0 < (l.rest.takeWhile isNameByte).length := by
    simp [hr, isNameByte, hc]
  have hpos : 0 < l.rest.length := by simp [hr]
  simp only [word] at h
  split at h
  · exact take_remaining_lt h hlen hpos
  · exact take_remaining_lt h hlen hpos

theorem operator_remaining_lt {l l' : Lexer} {c : UInt8} {found : List Token}
    (h : l.operator c = .ok (found, l')) (hr : 0 < l.rest.length) :
    l'.remaining < l.remaining := by
  simp only [operator] at h
  split at h
  · next o _ =>
    exact take_remaining_lt (l := { l with depth := depthAfter l.depth o }) h
      o.text_length_pos hr
  · cases h

/-- Whatever a line goes on with, less is left to read. -/
theorem withinLine_remaining_lt {l l' : Lexer} {c : UInt8} {after : Text} {found : List Token}
    (h : l.withinLine c = .ok (found, l')) (hl : l.atLineStart = false)
    (hr : l.rest = c :: after) : l'.remaining < l.remaining := by
  have hpos : 0 < l.rest.length := by simp [hr]
  simp only [withinLine] at h
  split at h
  · simp only [Except.ok.injEq, Prod.mk.injEq] at h
    obtain ⟨-, rfl⟩ := h
    exact skip_remaining_lt (by omega) hpos
  split at h
  · next hc =>
    simp only [Except.ok.injEq, Prod.mk.injEq] at h
    obtain ⟨-, rfl⟩ := h
    refine skip_remaining_lt ?_ hpos
    have hne : c ≠ Text.newline := by rw [hc]; decide
    simp [hr, hne]
  split at h
  · simp only [Except.ok.injEq, Prod.mk.injEq] at h
    obtain ⟨-, rfl⟩ := h
    exact skip_remaining_lt (by omega) hpos
  split at h
  · simp only [Except.ok.injEq, Prod.mk.injEq] at h
    obtain ⟨-, rfl⟩ := h
    simp only [remaining, skip, List.length_drop, hl, Bool.toNat_true, Bool.toNat_false]
    omega
  split at h
  · next hc => exact number_remaining_lt h hr hc
  split at h
  · next hc => exact word_remaining_lt h hr hc
  split at h
  · simp only [string] at h
    split at h
    · exact take_remaining_lt h (by omega) hpos
    · cases h
  · exact operator_remaining_lt h hpos

/-- Every step makes progress. -/
theorem step_remaining_lt {l l' : Lexer} {c : UInt8} {after : Text} {found : List Token}
    (h : l.step c = .ok (found, l')) (hr : l.rest = c :: after) :
    l'.remaining < l.remaining := by
  simp only [step] at h
  split at h
  · next hl => exact lineStart_remaining_lt h hl (by simp [hr])
  · next hl => exact withinLine_remaining_lt h (by simpa using hl) hr

/-- The tokens from here to the end of the source. -/
def run (l : Lexer) : Except Failure (List Token) :=
  match hr : l.rest with
  | [] => l.finish
  | c :: _ =>
    match h : l.step c with
    | .error failure => .error failure
    | .ok (found, next) =>
      have := step_remaining_lt h hr
      (next.run).map (found ++ ·)
termination_by l.remaining

end Lexer

/-- The tokens of a source, closed by one `endOfInput` token. -/
def tokenize (source : Text) : Except (Located Token.Fault) (List Token) :=
  (Lexer.start source).run.mapError fun failure =>
    ⟨failure.fault, (LineIndex.ofText source).position failure.offset⟩

end WatCompiler
