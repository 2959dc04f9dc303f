import WatCompiler.Datum.Token
import WatCompiler.Table

/-!
# Reading data

A reader takes tokens one at a time and keeps the data that are still open on a stack, innermost
first. Reading a text is a fold over its tokens, so the data of two texts one after the other are
the data of the first followed by those of the second.

A fault of the text itself is reported in place of a reader's complaint when the reader has come as
far as the last token before it, because the complaint may be its consequence.
-/

namespace WatCompiler.Datum

/-- Why tokens are not a sequence of data. -/
inductive ReadFault
  | lexical (fault : LexicalFault)
  | unexpected (found : Lexeme)
  | unclosed (expected found : Lexeme)
  | tagsExpected (found : Lexeme)
  | keyExpected (found : Lexeme)
  | colonExpected (found : Lexeme)
  | separatorExpected (found : Lexeme)
deriving DecidableEq, Repr

/-- The wording of a fault. -/
def ReadFault.message : ReadFault → Text
  | lexical fault => fault.message
  | unexpected found => "unexpected " ++ found.describe
  | unclosed expected found =>
    "expected " ++ expected.describe ++ " but got " ++ found.describe
  | tagsExpected found => "expected '\x7b' after '^' but got " ++ found.describe
  | keyExpected found => "expected symbol for map key but got " ++ found.describe
  | colonExpected found => "expected ':' after map key but got " ++ found.describe
  | separatorExpected found => "expected ',' or '\x7d' in map but got " ++ found.describe

/-- Why a text cannot be read. -/
inductive ReadError
  /-- Something is wrong at an offset. -/
  | located (fault : ReadFault) (offset : Nat)
  /-- One datum was asked for. -/
  | notOne (count : Nat)
deriving DecidableEq, Repr

/-- The wording of an error. -/
def ReadError.message : ReadError → Text
  | located fault offset => "offset " ++ Text.ofNat offset ++ ": " ++ fault.message
  | notOne count => "expected one datum but got " ++ Text.ofNat count

/-- What an open map waits for. -/
inductive Slot
  | key
  | colon (key : Text)
  | value (key : Text)
  | separator
deriving DecidableEq, Repr

/-- A datum that is still open. What it holds so far is in reverse order. -/
inductive Frame
  | list (items : List Datum) (tags : Table Datum)
  | array (items : List Datum)
  | map (entries : List (Text × Datum)) (slot : Slot)
  /-- The list below this frame has an announced set of tags. -/
  | caret
  /-- The tags of the list below this frame. -/
  | tags (entries : List (Text × Datum)) (slot : Slot)
deriving Repr

/-- A reader: the data it has read, last first, and those that are open, innermost first. -/
structure Reader where
  done : List Datum
  frames : List Frame
deriving Repr

namespace Reader

/-- Before the first token. -/
def start : Reader := ⟨[], []⟩

/-- Enters tags; a later value of a tag takes the place of an earlier one. -/
def setTags (tags : Table Datum) (entries : List (Text × Datum)) : Table Datum :=
  entries.foldl (fun tags entry => Table.insert tags entry.1 entry.2) tags

/-- Puts a finished datum where the innermost open one wants it. -/
def put (r : Reader) (d : Datum) : Reader :=
  match r.frames with
  | [] => { r with done := d :: r.done }
  | .list items tags :: below => { r with frames := .list (d :: items) tags :: below }
  | .array items :: below => { r with frames := .array (d :: items) :: below }
  | .map entries (.value key) :: below =>
    { r with frames := .map ((key, d) :: entries) .separator :: below }
  | .tags entries (.value key) :: below =>
    { r with frames := .tags ((key, d) :: entries) .separator :: below }
  | _ => r

/-- Opens a datum. -/
def enter (r : Reader) (frame : Frame) : Reader := { r with frames := frame :: r.frames }

/-- The token has to start a datum. -/
def datum (r : Reader) : Lexeme → Except ReadFault Reader
  | .symbol t => .ok (r.put (.symbol t))
  | .string t => .ok (r.put (.string t))
  | .integer t => .ok (r.put (.integer t))
  | .ellipsis => .ok (r.put .ellipsis)
  | .leftParen => .ok (r.enter (.list [] []))
  | .leftBrace => .ok (r.enter (.map [] .key))
  | .leftBracket => .ok (r.enter (.array []))
  | found => .error (.unexpected found)

/-- A token inside braces: the next slot, or nothing when the braces close. A value is left to
`datum`. -/
def nextSlot : Slot → Lexeme → Except ReadFault (Option Slot)
  | .key, .rightBrace => .ok none
  | .key, .symbol key => .ok (some (.colon key))
  | .key, .endOfInput => .error (.unclosed .rightBrace .endOfInput)
  | .key, found => .error (.keyExpected found)
  | .colon key, .colon => .ok (some (.value key))
  | .colon _, found => .error (.colonExpected found)
  | .separator, .comma => .ok (some .key)
  | .separator, .rightBrace => .ok none
  | .separator, found => .error (.separatorExpected found)
  | .value _, found => .error (.unexpected found)

/-- Closes the tags of a list and enters them. -/
def closeTags (r : Reader) (entries : List (Text × Datum)) (below : List Frame) : Reader :=
  match below with
  | .list items tags :: below =>
    { r with frames := .list items (setTags tags entries.reverse) :: below }
  | below => { r with frames := below }

/-- One token. -/
def step (r : Reader) (found : Lexeme) : Except ReadFault Reader :=
  match r.frames with
  | [] => if found = .endOfInput then .ok r else r.datum found
  | .list items tags :: below =>
    match found with
    | .rightParen => .ok (put { r with frames := below } (.list items.reverse tags))
    | .caret => .ok (r.enter .caret)
    | .endOfInput => .error (.unclosed .rightParen found)
    | found => r.datum found
  | .array items :: below =>
    match found with
    | .rightBracket => .ok (put { r with frames := below } (.array items.reverse []))
    | .endOfInput => .error (.unclosed .rightBracket found)
    | found => r.datum found
  | .caret :: below =>
    match found with
    | .leftBrace => .ok { r with frames := .tags [] .key :: below }
    | found => .error (.tagsExpected found)
  | .map _ (.value _) :: _ => r.datum found
  | .tags _ (.value _) :: _ => r.datum found
  | .map entries slot :: below => do
    match ← nextSlot slot found with
    | some slot => pure { r with frames := .map entries slot :: below }
    | none => pure (put { r with frames := below } (.map entries.reverse))
  | .tags entries slot :: below => do
    match ← nextSlot slot found with
    | some slot => pure { r with frames := .tags entries slot :: below }
    | none => pure (r.closeTags entries below)

/-- All tokens. `broken` is the fault that ends the text, if there is one. -/
def run (broken : Option ReadError) (r : Reader) : List Token → Except ReadError Reader
  | [] => .ok r
  | t :: rest =>
    match r.step t.lexeme with
    | .ok next => run broken next rest
    | .error fault =>
      .error (if rest.length ≤ 1 then broken.getD (.located fault t.offset)
        else .located fault t.offset)

end Reader

/-- The fault that ends a text as an error. -/
def Tokens.error? (ts : Tokens) : Option ReadError :=
  ts.fault.map fun fault => .located (.lexical fault.1) fault.2

/-- All data of a text. -/
def parseAll (t : Text) : Except ReadError (List Datum) := do
  let ts := tokensOf t
  let r ← Reader.start.run ts.error? ts.tokens
  match ts.error? with
  | some error => throw error
  | none => pure r.done.reverse

/-- The only datum of a text. -/
def parse (t : Text) : Except ReadError Datum := do
  match ← parseAll t with
  | [d] => pure d
  | data => throw (.notOne data.length)

end WatCompiler.Datum
