import WatCompiler.Datum.Printer

/-!
# Layout of module text

How a module is laid out over lines. A form either stands on one line, or its first items stand on
one line, its other items on the following ones, indented by one more step, and its closing
parenthesis on a line of its own.
-/

namespace WatCompiler

/-- A form together with its layout. -/
inductive Layout
  /-- A form on one line. -/
  | line (form : Datum)
  /-- A list whose first items stand on its first line. -/
  | block (head : List Datum) (body : List Layout)
deriving Repr

namespace Layout

/-- The space before a line. -/
def indent (depth : Nat) : Text := List.replicate (2 * depth) (Text.byte ' ')

mutual

/-- The text of a form at a given depth. -/
def textAt (depth : Nat) : Layout → Text
  | line form => indent depth ++ form.render ++ "\n"
  | block head body =>
    indent depth ++ "(" ++ Text.join " " (head.map Datum.render) ++ "\n" ++
      textsAt (depth + 1) body ++ indent depth ++ ")\n"

/-- The text of forms at a given depth, one after the other. -/
def textsAt (depth : Nat) : List Layout → Text
  | [] => []
  | form :: rest => textAt depth form ++ textsAt depth rest

end

/-- The text of a form. -/
def text (form : Layout) : Text := form.textAt 0

mutual

/-- The form without its layout. -/
def datum : Layout → Datum
  | line form => form
  | block head body => .form (head ++ data body)

/-- Forms without their layout. -/
def data : List Layout → List Datum
  | [] => []
  | form :: rest => form.datum :: data rest

end

end Layout

end WatCompiler
