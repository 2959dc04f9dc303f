import WatCompiler.Machine

/-!
# Dialogues

What a command asks of the world around it, one request after the other: to say something, to read
or write a file, to run a machine, to end. `Dialogue.play` lets a file system answer the requests
for files. What it answers is up to the system; a command only sees the answers.
-/

namespace WatCompiler.CommandLine

/-- Why the system did not do what it was asked for: the operation that failed, the path, and the
reason that the system gives. -/
structure FileError where
  operation : Text
  path : Text
  reason : Text
deriving DecidableEq, Repr

/-- The wording of an error. -/
def FileError.message (e : FileError) : Text :=
  e.operation ++ " " ++ e.path ++ ": " ++ e.reason

/-- What a system answers to requests for files. Its state is all that its answers depend on. -/
structure FileSystem (σ : Type) where
  /-- The content of the file with a path. -/
  read : σ → Text → Except FileError Text
  /-- Replaces the content of the file with a path, or makes a new one. -/
  write : σ → Text → Text → Except FileError Unit × σ

/-- Where something is said. -/
inductive Channel
  | answer
  | diagnostics
deriving DecidableEq, Repr

/-- Requests, each with what follows its answer. -/
inductive Dialogue
  | exit (code : Nat)
  | say (channel : Channel) (text : Text) (next : Dialogue)
  | read (path : Text) (next : Except FileError Text → Dialogue)
  | write (path content : Text) (next : Except FileError Unit → Dialogue)
  /-- Runs a machine; what it prints goes to the answer. -/
  | run (machine : Machine) (next : Run → Dialogue)

/-- The state of the files, and what was said so far. -/
structure World (σ : Type) where
  files : σ
  answer : Text
  diagnostics : Text
deriving DecidableEq, Repr

section Playing

variable {σ : Type}

/-- Says something. -/
def World.say (w : World σ) (channel : Channel) (text : Text) : World σ :=
  match channel with
  | .answer => { w with answer := w.answer ++ text }
  | .diagnostics => { w with diagnostics := w.diagnostics ++ text }

/-- Answers all requests: the world and the exit code at the end. Machines make at most `fuel`
moves. -/
def Dialogue.play (system : FileSystem σ) (fuel : Nat) (w : World σ) :
    Dialogue → Option (World σ × Nat)
  | exit code => some (w, code)
  | say channel text next => next.play system fuel (w.say channel text)
  | read path next => (next (system.read w.files path)).play system fuel w
  | write path content next =>
    let answer := system.write w.files path content
    (next answer.1).play system fuel { w with files := answer.2 }
  | run machine next =>
    match machine.run none fuel with
    | none => none
    | some r => (next r).play system fuel (w.say .answer r.printed)

end Playing

end WatCompiler.CommandLine
