import WatCompiler.Datum
import WatCompiler.Text.Quoted

/-!
# The tokens of written data

Cutting a text into the tokens that data are read from. Blanks and comments, which run from a
semicolon to the end of the line, stand between tokens. A text that cannot be cut further ends with
the fault; the tokens before it are kept, since a reader may have stopped on them already.
-/

namespace WatCompiler.Datum

/-- The tokens that data are made of. -/
inductive Lexeme
  | endOfInput
  | symbol (text : Text)
  | string (text : Text)
  | integer (text : Text)
  | ellipsis
  | leftParen | rightParen | leftBrace | rightBrace | leftBracket | rightBracket
  | colon | comma | caret
deriving DecidableEq, Repr

/-- How messages name a token. -/
def Lexeme.describe : Lexeme → Text
  | endOfInput => "EOF"
  | symbol _ => "symbol"
  | string _ => "string"
  | integer _ => "integer"
  | ellipsis => "ellipsis"
  | leftParen => "'('"
  | rightParen => "')'"
  | leftBrace => "'\x7b'"
  | rightBrace => "'\x7d'"
  | leftBracket => "'['"
  | rightBracket => "']'"
  | colon => "':'"
  | comma => "','"
  | caret => "'^'"

/-- A token and the offset at which it starts. -/
structure Token where
  lexeme : Lexeme
  offset : Nat
deriving DecidableEq, Repr

/-- Why a text cannot be cut into tokens. -/
inductive LexicalFault
  | unexpectedCharacter (c : UInt8)
  | invalidEscape (c : UInt8)
  | unterminatedString
deriving DecidableEq, Repr

/-- The wording of a fault. -/
def LexicalFault.message : LexicalFault → Text
  | unexpectedCharacter c => "unexpected character " ++ Text.quoteByte c
  | invalidEscape c => "invalid escape sequence \\" ++ Text.ofScalar c.toNat
  | unterminatedString => "unterminated string"

/-- What stands at the start of a text. -/
inductive Scan
  /-- Nothing, for `length` bytes. -/
  | blank (length : Nat)
  /-- A token of `length` bytes. -/
  | token (lexeme : Lexeme) (length : Nat)
  /-- A fault, `distance` bytes further on. -/
  | fault (fault : LexicalFault) (distance : Nat)
deriving DecidableEq, Repr

/-- Bytes between tokens. -/
def isSpace (c : UInt8) : Bool :=
  c = Text.byte ' ' || c = Text.byte '\t' || c = Text.newline || c = Text.byte '\r'

/-- Bytes of symbols. -/
def isSymbolByte (c : UInt8) : Bool :=
  Text.isAlpha c || Text.isDigit c || (Text.ofString "_-+$.=!<>*/%?@").contains c

/-- The tokens of one byte. -/
def punctuation? (c : UInt8) : Option Lexeme :=
  if c = Text.byte '(' then some .leftParen
  else if c = Text.byte ')' then some .rightParen
  else if c = Text.byte '\x7b' then some .leftBrace
  else if c = Text.byte '\x7d' then some .rightBrace
  else if c = Text.byte '[' then some .leftBracket
  else if c = Text.byte ']' then some .rightBracket
  else if c = Text.byte ':' then some .colon
  else if c = Text.byte ',' then some .comma
  else if c = Text.byte '^' then some .caret
  else none

/-- A string after its opening quotation mark, `distance` bytes into it, with the contents read so
far in reverse. Only quotation marks and backslashes can be escaped. -/
def scanString (distance : Nat) (read : Text) : Text → Scan
  | [] => .fault .unterminatedString 0
  | c :: rest =>
    if c = Text.byte '"' then .token (.string read.reverse) (distance + 1)
    else if c = Text.byte '\\' then
      match rest with
      | [] => .fault (.invalidEscape 0) distance
      | e :: rest =>
        if e = Text.byte '"' || e = Text.byte '\\' then scanString (distance + 2) (e :: read) rest
        else .fault (.invalidEscape e) distance
    else scanString (distance + 1) (c :: read) rest

/-- Whether an integer starts with `c`: a digit, or a sign before a digit. -/
def startsInteger (c : UInt8) (rest : Text) : Bool :=
  Text.isDigit c ||
    ((c = Text.byte '-' || c = Text.byte '+') && (rest.head?.map Text.isDigit).getD false)

/-- What stands at the start of the text `c :: rest`. -/
def scan (c : UInt8) (rest : Text) : Scan :=
  if isSpace c then .blank 1
  else if c = Text.byte ';' then .blank ((rest.takeWhile (· ≠ Text.newline)).length + 1)
  else if c = Text.byte '"' then scanString 1 [] rest
  else if (Text.ofString "...").isPrefixOf (c :: rest) then .token .ellipsis 3
  else if startsInteger c rest then
    let digits := rest.takeWhile Text.isDigit
    .token (.integer (c :: digits)) (digits.length + 1)
  else if isSymbolByte c then
    let more := rest.takeWhile isSymbolByte
    .token (.symbol (c :: more)) (more.length + 1)
  else match punctuation? c with
    | some lexeme => .token lexeme 1
    | none => .fault (.unexpectedCharacter c) 0

/-- The tokens of a text, and the fault that ends them, if there is one. -/
structure Tokens where
  tokens : List Token
  fault : Option (LexicalFault × Nat)
deriving DecidableEq, Repr

/-- One more token in front. -/
def Tokens.cons (t : Token) (ts : Tokens) : Tokens := ⟨t :: ts.tokens, ts.fault⟩

/-- The tokens of a text that starts at `offset`, the first `taken` bytes of which belong to the
token before it. The list always ends with `endOfInput`. -/
def tokensFrom : (taken offset : Nat) → Text → Tokens
  | _, offset, [] => ⟨[⟨.endOfInput, offset⟩], none⟩
  | taken + 1, offset, _ :: rest => tokensFrom taken (offset + 1) rest
  | 0, offset, c :: rest =>
    match scan c rest with
    | .blank length => tokensFrom (length - 1) (offset + 1) rest
    | .token lexeme length =>
      (tokensFrom (length - 1) (offset + 1) rest).cons ⟨lexeme, offset⟩
    | .fault fault distance => ⟨[⟨.endOfInput, offset⟩], some (fault, offset + distance)⟩

/-- The tokens of a text. -/
def tokensOf (t : Text) : Tokens := tokensFrom 0 0 t

end WatCompiler.Datum
