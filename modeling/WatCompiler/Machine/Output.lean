import WatCompiler.Host
import WatCompiler.Machine.Failure

/-!
# Output and host calls

What a run prints goes out in one write for each line. The receiver may refuse to take any more
lines after a given number of them.
-/

namespace WatCompiler

/-- The lines that were written, the newest first, and how many more are taken, if that is
limited. -/
structure Output where
  lines : List Text
  room : Option Nat
deriving DecidableEq, Repr

namespace Output

/-- Nothing written yet. -/
def empty (room : Option Nat) : Output := ⟨[], room⟩

/-- Everything that was written. -/
def text (out : Output) : Text := out.lines.reverse.flatMap fun line => line ++ "\n"

/-- Writes a line. -/
def write? (out : Output) (line : Text) : Option Output :=
  match out.room with
  | none => some { out with lines := line :: out.lines }
  | some 0 => none
  | some (room + 1) => some ⟨line :: out.lines, some room⟩

end Output

/-- Calls a function of the host. -/
def Host.call (host : Host) (args : List Int32) (out : Output) : Except Failure (Int32 × Output) :=
  match host, args with
  | .print, value :: mode :: _ =>
    match out.write? ((PrintMode.ofCode mode).render value) with
    | none => .error .writeFailed
    | some out => .ok (0, out)
  | .abs, value :: _ => .ok (if value < 0 then -value else value, out)
  | .min, lhs :: rhs :: _ => .ok (if rhs < lhs then rhs else lhs, out)
  | .max, lhs :: rhs :: _ => .ok (if lhs < rhs then rhs else lhs, out)
  | .pow, base :: exponent :: _ => .ok (intPow base exponent, out)
  | _, _ => .error .missingPart

/-- Calls the function of the host with a given name. -/
def Host.callNamed (name : Text) (args : List Int32) (out : Output) :
    Except Failure (Int32 × Output) :=
  match Host.ofName? name with
  | none => .error (.unknownImport name)
  | some host => host.call args out

end WatCompiler
