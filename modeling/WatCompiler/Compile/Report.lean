import WatCompiler.Compile
import WatCompiler.Log
import WatCompiler.Module

/-!
# Progress reports

Compiling a source can report which stages it passed. The reports become log records.
-/

namespace WatCompiler

/-- A stage that was passed, with the sizes of what it made. -/
inductive Milestone
  | parsed (statements : Nat)
  | built (functions globals statements : Nat)
  | checked
  | generated (bytes : Nat)
deriving DecidableEq, Repr

/-- The module of a source and the stages that were passed on the way. -/
def compileWithReport (source : Text) : List Milestone × Except Rejection Text :=
  match SyntaxTree.parse source with
  | .error e => ([], .error (.grammar e))
  | .ok tree =>
    let parsed := .parsed tree.children.length
    match Program.ofTree source tree with
    | .error e => ([parsed], .error (.form e))
    | .ok program =>
      let built :=
        .built program.functions.length program.globals.length program.stmts.length
      match program.check with
      | .error e => ([parsed, built], .error (.typing e))
      | .ok checked =>
        match checked.toWat with
        | .error fault => ([parsed, built, .checked], .error (.code fault))
        | .ok wat => ([parsed, built, .checked, .generated wat.length], .ok wat)

/-- Reporting does not change the answer. -/
theorem compileWithReport_snd (source : Text) : (compileWithReport source).2 = compile source := by
  unfold compileWithReport compile checkSource parseProgram
  cases SyntaxTree.parse source with
  | error e => rfl
  | ok tree =>
    delta Except.mapError
    simp only [bind, Except.bind]
    cases Program.ofTree source tree with
    | error e => rfl
    | ok program =>
      simp only []
      cases program.check with
      | error e => rfl
      | ok checked =>
        simp only []
        cases checked.toWat <;> rfl

/-- A field with a number. -/
def countField (key : String) (count : Nat) : Log.Field := ⟨key, .number count⟩

/-- The field that names a stage. -/
def phaseField (name : String) : Log.Field := ⟨"phase", .text name⟩

/-- The log record for a stage. -/
def Milestone.record : Milestone → Log.Record
  | parsed statements => ⟨"Parsing complete", [phaseField "syntax", countField "nodes" statements]⟩
  | built functions globals statements =>
    ⟨"AST built", [phaseField "build", countField "functions" functions,
      countField "globals" globals, countField "statements" statements]⟩
  | checked => ⟨"Type check complete", [phaseField "check"]⟩
  | generated bytes =>
    ⟨"Code generation complete", [phaseField "codegen", countField "bytes" bytes]⟩

/-- The log record for the start of a run. -/
def Module.record (m : Module) : Log.Record :=
  ⟨"Executing module",
    [countField "functions" (m.functions.filter fun f => f.name.isSome).length,
      countField "globals" m.globals.length]⟩

end WatCompiler
