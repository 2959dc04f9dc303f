import WatCompiler.CommandLine.Dialogue
import WatCompiler.CommandLine.Flags
import WatCompiler.Compile.Report
import WatCompiler.Module.Reader
import WatCompiler.Program.Dump

/-!
# The command line

Commands to run, build, evaluate and check programs. A command has its flags and exactly one other
argument.
-/

namespace WatCompiler.CommandLine

/-- The name of the program in its messages. -/
def programName : Text := "chocowasm"

/-- The commands that take flags. -/
inductive Command
  | run
  | build
  | eval
  | check
deriving DecidableEq, Repr

namespace Command

/-- The name of a command. -/
def name : Command → Text
  | run => "run"
  | build => "build"
  | eval => "eval"
  | check => "check"

/-- All commands. -/
def all : List Command := [run, build, eval, check]

/-- The command with a given name. -/
def ofName? (t : Text) : Option Command := all.find? fun c => c.name == t

/-- What the argument of a command is. -/
def argument : Command → Text
  | eval => "code"
  | _ => "file"

/-- How a command is written. -/
def synopsis : Command → Text
  | run => "run [-v] [-log-format f] <file>"
  | build => "build [-o output] [-v] [-log-format f] <file>"
  | eval => "eval [-v] [-wat] <code>"
  | check => "check [-v] <file>"

/-- What a command does. -/
def purpose : Command → Text
  | run => "Compile and execute a .py file"
  | build => "Compile a .py file to a .wat module"
  | eval => "Compile and execute inline code"
  | check => "Parse and type-check a .py file"

/-- The flags of a command, ordered by name. -/
def flags : Command → List FlagUse
  | run => [logFormat, verbose]
  | build => [logFormat, ⟨.output, "Output file path (default: <filename>.wat)"⟩, verbose]
  | eval =>
    [logFormat, verbose,
      ⟨.showModule, "Print the generated module instead of executing it"⟩]
  | check => [⟨.verbose, "Print the type-annotated AST"⟩]
where
  /-- The flag for the format of the log. -/
  logFormat : FlagUse := ⟨.logFormat, "Log format: text or json"⟩
  /-- The flag that turns the log on. -/
  verbose : FlagUse := ⟨.verbose, "Show verbose compilation details"⟩

/-- How a command is used. -/
def usage (c : Command) : Text :=
  "Usage: " ++ programName ++ " " ++ c.synopsis ++ "\n" ++ c.purpose ++ "\n\nFlags:\n" ++
    c.flags.flatMap FlagUse.explain

end Command

/-- How the program is used. -/
def usage : Text :=
  programName ++ " - compiles a typed subset of Python to WebAssembly text\n\nUsage:\n    " ++
    programName ++ " <command> [arguments]\n\nCommands:\n" ++
    "    run <file>      Compile and execute a .py file\n" ++
    "    build <file>    Compile a .py file to a .wat module\n" ++
    "    eval <code>     Compile and execute inline code\n" ++
    "    check <file>    Parse and type-check a .py file\n" ++
    "    help            Show this help message\n\nExamples:\n" ++
    "    " ++ programName ++ " run examples/fib.py\n" ++
    "    " ++ programName ++ " build -o program.wat hello.py\n" ++
    "    " ++ programName ++ " eval 'print(42)'\n" ++
    "    " ++ programName ++ " check myfile.py\n\n" ++
    "Use \"" ++ programName ++ " <command> -h\" for more information about a command.\n"

/-- Tells what went wrong and ends. -/
def complain (text : Text) : Dialogue := .say .diagnostics text (.exit 1)

/-! ## Parts of commands -/

/-- The settings of the log that options ask for. -/
def Options.log (o : Options) : Log.Settings :=
  ⟨if o.verbose then Log.debug else Log.warning, .ofName o.logFormat⟩

/-- The field that log records about a file have. -/
def fileField (path : Text) : Log.Field := ⟨"file", .text path⟩

/-- Reads a source and goes on with it. -/
def withSource (path : Text) (next : Text → Dialogue) : Dialogue :=
  .read path fun
    | .error e => complain ("Error reading file " ++ path ++ ": " ++ e.message ++ "\n")
    | .ok source => next source

/-- Compiles a source, logs that, and goes on with the module. -/
def withModule (log : Log.Settings) (common : List Log.Field) (source : Text)
    (next : Text → Dialogue) : Dialogue :=
  let (passed, result) := compileWithReport source
  .say .diagnostics (log.render common (passed.map Milestone.record)) <|
    match result with
    | .error r => complain ("Compilation failed: " ++ r.message ++ "\n")
    | .ok wat => next wat

/-- Runs a module. -/
def execute (log : Log.Settings) (common : List Log.Field) (wat : Text) : Dialogue :=
  match Module.parse wat with
  | .error e => complain ("Execution failed: " ++ e.message ++ "\n")
  | .ok m =>
    .say .diagnostics (log.render common [m.record]) <|
      .run (.ofModule m 0) fun r =>
        match r.failure with
        | none => .exit 0
        | some failure => complain ("Execution failed: " ++ failure.message ++ "\n")

/-- The file that a module is written to: the one that was asked for, or the source's name with
another ending. -/
def outputPath (o : Options) (path : Text) : Text :=
  let ending : Text := ".py"
  if o.output ≠ [] then o.output
  else if ending.isSuffixOf path then path.take (path.length - ending.length) ++ ".wat"
  else path ++ ".wat"

/-! ## Commands -/

/-- Carries out a command with its options and argument. -/
def Command.perform (c : Command) (o : Options) (arg : Text) : Dialogue :=
  match c with
  | .run =>
    withSource arg fun source =>
      withModule o.log [fileField arg] source fun wat => execute o.log [fileField arg] wat
  | .build =>
    withSource arg fun source =>
      withModule o.log [fileField arg] source fun wat =>
        .write (outputPath o arg) wat fun
          | .error e =>
            complain ("Error writing WAT file " ++ outputPath o arg ++ ": " ++ e.message ++ "\n")
          | .ok () =>
            .say .answer ("Generated " ++ outputPath o arg ++ " (" ++ Text.ofNat wat.length ++
              " bytes)\n") (.exit 0)
  | .eval =>
    withModule o.log [] arg fun wat =>
      if o.showModule then .say .answer wat (.exit 0) else execute o.log [] wat
  | .check =>
    withSource arg fun source =>
      match checkSource source with
      | .error r => .say .answer (arg ++ ": " ++ r.message ++ "\n") (.exit 1)
      | .ok program =>
        .say .answer (arg ++ ": no errors found\n") <|
          if o.verbose then .say .answer ("AST: " ++ program.dump ++ "\n") (.exit 0) else .exit 0

/-- Reads the arguments of a command and carries it out. -/
def Command.start (c : Command) (args : List Text) : Dialogue :=
  match parseFlags c.flags .default args with
  | .error .help => .say .diagnostics c.usage (.exit 0)
  | .error fault => .say .diagnostics (fault.message ++ c.usage) (.exit 2)
  | .ok (o, [arg]) => c.perform o arg
  | .ok _ => complain ("Error: expected exactly one " ++ c.argument ++ " argument\n" ++ c.usage)

/-- The words that ask how the program is used. -/
def helpCommands : List Text := ["help", "-h", "--help"]

/-- What the program does with its arguments. -/
def start : List Text → Dialogue
  | [] => complain usage
  | word :: args =>
    match Command.ofName? word with
    | some c => c.start args
    | none =>
      if helpCommands.contains word then .say .diagnostics usage (.exit 0)
      else complain ("Unknown command: " ++ word ++ "\n\n" ++ usage)

/-- What the program does with the files of a system, and its exit code. -/
def invoke {σ : Type} (system : FileSystem σ) (fuel : Nat) (args : List Text) (files : σ) :
    Option (World σ × Nat) :=
  (start args).play system fuel ⟨files, [], []⟩

end WatCompiler.CommandLine
