import WatCompiler.Datum.Printer

/-!
# Matching data against patterns

A pattern is a datum. The symbol `_` matches every datum. Inside a list or an array an ellipsis
matches any run of items, also an empty one. Tags that a pattern has must be there with matching
values; other tags are ignored. Otherwise a pattern matches data of its own kind with the same text,
items and entries. What does not match is described by the first difference found.
-/

namespace WatCompiler.Datum

/-- Where a pattern and a datum differ, and how. -/
inductive Mismatch
  | kind (path : Text) (pattern actual : Datum)
  | text (path : Text) (pattern actual : Datum)
  | missingTag (path key : Text) (actual : Datum)
  | missingKey (path key : Text)
  | extraItem (path : Text) (index : Nat) (actual : Datum)
  | missingItem (path : Text) (index : Nat) (pattern : Datum)
deriving Repr

/-- The wording of a mismatch. -/
def Mismatch.message : Mismatch → Text
  | kind path pattern actual =>
    "at " ++ path ++ ": expected " ++ pattern.kind.name ++ " " ++ pattern.render ++
      ", got " ++ actual.kind.name ++ " " ++ actual.render
  | text path pattern actual =>
    "at " ++ path ++ ": expected " ++ pattern.render ++ ", got " ++ actual.render
  | missingTag path key actual =>
    "at " ++ path ++ ": missing metadata " ++ key ++ " in " ++ actual.render
  | missingKey path key => "at " ++ path ++ ": missing key " ++ key
  | extraItem path index actual =>
    "at " ++ path ++ "[" ++ Text.ofNat index ++ "]: unexpected " ++ actual.render
  | missingItem path index pattern =>
    "at " ++ path ++ "[" ++ Text.ofNat index ++ "]: missing " ++ pattern.render

/-- The path of an item. -/
def itemPath (path : Text) (index : Nat) : Text := path ++ "[" ++ Text.ofNat index ++ "]"

/-- The first success of `attempt` on a list and its tails, `index` counting the items passed over.
If none succeeds, the mismatch on the whole list counts. -/
def matchSomeTail (attempt : List Datum → Nat → Except Mismatch Unit) :
    List Datum → Nat → Except Mismatch Unit
  | [], index => attempt [] index
  | d :: rest, index =>
    match attempt (d :: rest) index with
    | .ok () => .ok ()
    | .error first =>
      match matchSomeTail attempt rest (index + 1) with
      | .ok () => .ok ()
      | .error _ => .error first

mutual

/-- Matches a datum at `path` against a pattern. -/
def matchAt : (pattern actual : Datum) → (path : Text) → Except Mismatch Unit
  | .symbol t, actual, path =>
    if t = Text.ofString "_" then .ok ()
    else match actual with
      | .symbol t' => if t = t' then .ok () else .error (.text path (.symbol t) actual)
      | _ => .error (.kind path (.symbol t) actual)
  | .string t, actual, path =>
    match actual with
    | .string t' => if t = t' then .ok () else .error (.text path (.string t) actual)
    | _ => .error (.kind path (.string t) actual)
  | .integer t, actual, path =>
    match actual with
    | .integer t' => if t = t' then .ok () else .error (.text path (.integer t) actual)
    | _ => .error (.kind path (.integer t) actual)
  | .ellipsis, actual, path =>
    match actual with
    | .ellipsis => .ok ()
    | _ => .error (.kind path .ellipsis actual)
  | .list items tags, actual, path =>
    match actual with
    | .list items' _ => do
      matchTags tags actual path
      matchItems items items' path 0
    | _ => .error (.kind path (.list items tags) actual)
  | .array items tags, actual, path =>
    match actual with
    | .array items' _ => do
      matchTags tags actual path
      matchItems items items' path 0
    | _ => .error (.kind path (.array items tags) actual)
  | .map entries, actual, path =>
    match actual with
    | .map entries' => matchEntries entries entries' path
    | _ => .error (.kind path (.map entries) actual)
  | .foreign number, actual, path =>
    match actual with
    | .foreign number' =>
      if number = number' then .ok () else .error (.kind path (.foreign number) actual)
    | _ => .error (.kind path (.foreign number) actual)
termination_by pattern => sizeOf pattern
decreasing_by all_goals simp +arith

/-- Matches the tags of `actual` against those of a pattern. -/
def matchTags : (tags : List (Text × Datum)) → (actual : Datum) → (path : Text) →
    Except Mismatch Unit
  | [], _, _ => .ok ()
  | (key, pattern) :: rest, actual, path =>
    match actual.tag? key with
    | none => .error (.missingTag path key actual)
    | some value => do
      matchAt pattern value (path ++ "^" ++ key)
      matchTags rest actual path
termination_by tags => sizeOf tags
decreasing_by all_goals simp +arith

/-- Matches entries against those of a pattern; of several with one key the first counts. -/
def matchEntries : (patterns actual : List (Text × Datum)) → (path : Text) →
    Except Mismatch Unit
  | [], _, _ => .ok ()
  | (key, pattern) :: rest, actual, path =>
    match lookup key actual with
    | none => .error (.missingKey path key)
    | some value => do
      matchAt pattern value (path ++ "." ++ key)
      matchEntries rest actual path
termination_by patterns => sizeOf patterns
decreasing_by all_goals simp +arith

/-- Matches items, the first of which has number `index`, against those of a pattern. -/
def matchItems : (patterns actual : List Datum) → (path : Text) → (index : Nat) →
    Except Mismatch Unit
  | [], [], _, _ => .ok ()
  | [], d :: _, path, index => .error (.extraItem path index d)
  | .ellipsis :: patterns, actual, path, index =>
    matchSomeTail (fun tail index => matchItems patterns tail path index) actual index
  | pattern :: _, [], path, index => .error (.missingItem path index pattern)
  | pattern :: patterns, d :: rest, path, index => do
    matchAt pattern d (itemPath path index)
    matchItems patterns rest path (index + 1)
termination_by patterns => sizeOf patterns
decreasing_by all_goals simp +arith

end

/-- Matches a datum against a pattern. -/
def matches? (pattern actual : Datum) : Except Mismatch Unit := matchAt pattern actual "root"

end WatCompiler.Datum
