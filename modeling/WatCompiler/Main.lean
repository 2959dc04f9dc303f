import WatCompiler.CommandLine

/-!
# The program

Answers the requests of the command line from the system: its files, its output channels, and as
much time as a run takes.
-/

namespace WatCompiler.CommandLine

/-- A text as the bytes of a file. -/
def bytesOf (t : Text) : ByteArray := ⟨t.toArray⟩

/-- A text as the name of a file. -/
def nameOf (t : Text) : String := (String.fromUTF8? (bytesOf t)).getD ""

/-- Says something on a channel. -/
def tell (channel : Channel) (text : Text) : IO Unit := do
  let stream ← match channel with
    | .answer => IO.getStdout
    | .diagnostics => IO.getStderr
  stream.write (bytesOf text)
  stream.flush

/-- The reason that the system gives. -/
def reasonOf (e : IO.Error) : Text :=
  match e with
  | .noFileOrDirectory .. => "no such file or directory"
  | .inappropriateType _ _ reason | .permissionDenied _ _ reason | .invalidArgument _ _ reason
  | .resourceExhausted _ _ reason | .alreadyExists _ _ reason | .noSuchThing _ _ reason =>
    Text.ofString reason.decapitalize
  | e => Text.ofString (toString e).decapitalize

/-- Reads a file of the system. A directory can be opened, but not read. -/
def readFile (path : Text) : IO (Except FileError Text) := do
  try
    let bytes ← IO.FS.readBinFile (nameOf path)
    pure (.ok bytes.toList)
  catch e =>
    let reason := reasonOf e
    pure (.error ⟨if reason = "is a directory" then "read" else "open", path, reason⟩)

/-- Writes a file of the system. -/
def writeFile (path content : Text) : IO (Except FileError Unit) := do
  try
    IO.FS.writeBinFile (nameOf path) (bytesOf content)
    pure (.ok ())
  catch e => pure (.error ⟨"open", path, reasonOf e⟩)

/-- Moves a machine until its run is over, and prints lines as they come. -/
partial def moveOn (m : Module) (limit : Nat) (s : State) : IO (State × Option Failure) := do
  match s.step m limit with
  | .ended s failure => pure (s, failure)
  | .running s =>
    if s.out.lines.isEmpty then moveOn m limit s
    else
      tell .answer s.out.text
      moveOn m limit { s with out := .empty none }

/-- Runs a machine for as long as it takes. -/
def runMachine (machine : Machine) : IO Run := do
  match machine.start? none with
  | none => pure ⟨machine, [], some .missingPart⟩
  | some s =>
    let (s, failure) ← moveOn machine.code machine.limit s
    pure ⟨{ machine with globals := s.globals, steps := s.steps }, [], failure⟩

/-- Answers requests until the end. -/
def converse : Dialogue → IO UInt32
  | .exit code => pure code.toUInt32
  | .say channel text next => do
    tell channel text
    converse next
  | .read path next => do
    let answer ← readFile path
    converse (next answer)
  | .write path content next => do
    let answer ← writeFile path content
    converse (next answer)
  | .run machine next => do
    let answer ← runMachine machine
    converse (next answer)

end WatCompiler.CommandLine

/-- Carries out what the arguments ask for. -/
def main (args : List String) : IO UInt32 :=
  WatCompiler.CommandLine.converse
    (WatCompiler.CommandLine.start (args.map WatCompiler.Text.ofString))
