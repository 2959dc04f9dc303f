import WatCompiler.Text.Decimal
import WatCompiler.Text.Quoted

/-!
# Log records

Records of what the compiler did, one line each, as `key=value` pairs or as JSON objects. All
records have the same severity, and settings say from which severity on records are written.
-/

namespace WatCompiler.Log

/-- How records are written. -/
inductive Format
  | text
  | json
deriving DecidableEq, Repr

/-- The format with a given name. Names that mean nothing stand for text. -/
def Format.ofName (name : Text) : Format := if name = "json" then .json else .text

/-- The value of a field. -/
inductive Value
  | text (value : Text)
  | number (value : Nat)
deriving DecidableEq, Repr

/-- A key and its value. -/
structure Field where
  key : Text
  value : Value
deriving DecidableEq, Repr

/-- What happened. -/
structure Record where
  message : Text
  fields : List Field
deriving DecidableEq, Repr

/-- The least severity that is written, and how. -/
structure Settings where
  level : Int
  format : Format
deriving DecidableEq, Repr

/-- The severity of all records. -/
def debug : Int := -4

/-- The severity from which on records are written if nothing else is asked for. -/
def warning : Int := 4

/-! ## Key and value pairs -/

/-- Whether a piece of text can stand without quotation marks. -/
def isBare : Text.Fragment → Bool
  | .scalar code _ =>
    if code < 0x80 then
      0x20 < code && code ≠ (Text.byte '"').toNat && code ≠ (Text.byte '=').toNat
    else code ≠ 0xfffd && Text.isPrintable code
  | .damaged _ => false

/-- A text, in quotation marks if it cannot stand without. -/
def bareOrQuoted (t : Text) : Text :=
  if !t.isEmpty && (Text.decode t).all isBare then t else Text.quote t

/-- The value of a pair. -/
def Value.plain : Value → Text
  | text value => bareOrQuoted value
  | number value => Text.ofNat value

/-! ## JSON -/

/-- A piece of text in a JSON string. -/
def escapeFragment : Text.Fragment → Text
  | .scalar code _ =>
    if code = (Text.byte '\\').toNat ∨ code = (Text.byte '"').toNat then
      Text.byte '\\' :: Text.ofScalar code
    else if code = 0x0a then "\\n"
    else if code = 0x0d then "\\r"
    else if code = 0x09 then "\\t"
    else if code < 0x20 ∨ code = 0x2028 ∨ code = 0x2029 then "\\u" ++ Text.hex 4 code
    else Text.ofScalar code
  | .damaged _ => "\\ufffd"

/-- A JSON string. -/
def jsonString (t : Text) : Text := "\"" ++ (Text.decode t).flatMap escapeFragment ++ "\""

/-- A JSON value. -/
def Value.json : Value → Text
  | text value => jsonString value
  | number value => Text.ofNat value

/-! ## Records -/

/-- Severity and message of a record, then its fields. -/
def Record.allFields (r : Record) : List Field :=
  ⟨"level", .text "DEBUG"⟩ :: ⟨"msg", .text r.message⟩ :: r.fields

/-- The line for a record. -/
def Record.render (format : Format) (r : Record) : Text :=
  match format with
  | .text =>
    Text.join " " (r.allFields.map fun f => bareOrQuoted f.key ++ "=" ++ f.value.plain) ++ "\n"
  | .json =>
    "\x7b" ++ Text.join "," (r.allFields.map fun f => jsonString f.key ++ ":" ++ f.value.json) ++
      "\x7d\n"

/-- The lines for records that all have some fields in common, which come first. -/
def Settings.render (s : Settings) (common : List Field) (records : List Record) : Text :=
  if s.level ≤ debug then
    records.flatMap fun r => Record.render s.format { r with fields := common ++ r.fields }
  else []

end WatCompiler.Log
