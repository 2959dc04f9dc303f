import WatCompiler.Host
import WatCompiler.Table
import WatCompiler.Wat.Instr

/-!
# Modules

A module that can run: its globals with their initial values, its imports, its functions in the
order in which they were written, and the exported function that a run starts with.
-/

namespace WatCompiler

/-- A function. Its code stays data. -/
structure Func where
  name : Option Text
  exported : Option Text
  params : List Text
  locals : List Text
  hasResult : Bool
  body : List Datum
deriving Repr

namespace Func

/-- A function of which nothing is known yet. -/
def empty : Func := ⟨none, none, [], [], false, []⟩

/-- How many words a function gives back. -/
def results (f : Func) : Nat := if f.hasResult then 1 else 0

/-- How messages name a function. -/
def display (f : Func) : Text :=
  match f.name with
  | some name => name
  | none => "(export " ++ Text.quote (f.exported.getD []) ++ ")"

end Func

/-- A module. -/
structure Module where
  globals : Table Int32
  imports : Table Host
  functions : List Func
  entry : Func
deriving Repr

namespace Module

/-- The function of the module with a given name. -/
def function? (m : Module) (name : Text) : Option Func :=
  m.functions.find? fun f => f.name = some name

/-- How many words a function takes and gives back. An import hides a function of the same name. -/
def signature? (m : Module) (name : Text) : Option (Nat × Nat) :=
  match m.imports.find? name with
  | some host => some (host.arity, 1)
  | none => (m.function? name).map fun f => (f.params.length, f.results)

end Module

end WatCompiler
