import WatCompiler.Text.Quoted

/-!
# Flags

Options on the command line. A flag starts with one hyphen or two. A switch is on when it is given,
or has a truth value after an equals sign; any other flag has its value after an equals sign or as
the next argument. The first argument that is no flag, or two hyphens alone, ends the flags.
-/

namespace WatCompiler.CommandLine

/-- The flags. -/
inductive Flag
  | logFormat
  | output
  | verbose
  | showModule
deriving DecidableEq, Repr

/-- What flags say. -/
structure Options where
  logFormat : Text
  output : Text
  verbose : Bool
  showModule : Bool
deriving DecidableEq, Repr

/-- What holds without flags. -/
def Options.default : Options := ⟨"text", [], false, false⟩

namespace Flag

/-- The name of a flag. -/
def name : Flag → Text
  | logFormat => "log-format"
  | output => "o"
  | verbose => "v"
  | showModule => "wat"

/-- Whether a flag is on or off and has no other value. -/
def isSwitch : Flag → Bool
  | verbose | showModule => true
  | logFormat | output => false

/-- Turns a switch on or off. -/
def switch (flag : Flag) (on : Bool) (o : Options) : Options :=
  match flag with
  | verbose => { o with verbose := on }
  | showModule => { o with showModule := on }
  | _ => o

/-- Gives a flag a value. -/
def setTo (flag : Flag) (value : Text) (o : Options) : Options :=
  match flag with
  | logFormat => { o with logFormat := value }
  | output => { o with output := value }
  | _ => o

/-- The value that a flag has if it is not given; nothing if that is not worth telling. -/
def defaultText : Flag → Text
  | logFormat => Options.default.logFormat
  | _ => []

end Flag

/-- A flag of a command and what it is good for. -/
structure FlagUse where
  flag : Flag
  purpose : Text
deriving DecidableEq, Repr

/-- How a flag is explained. Short switches take one line, all others two. -/
def FlagUse.explain (use : FlagUse) : Text :=
  let start : Text := "  -" ++ use.flag.name ++ if use.flag.isSwitch then "" else " string"
  let gap : Text := if start.length ≤ 4 then "\t" else "\n    \t"
  let rest : Text :=
    if use.flag.defaultText.isEmpty then ""
    else " (default " ++ Text.quote use.flag.defaultText ++ ")"
  start ++ gap ++ use.purpose ++ rest ++ "\n"

/-- Why flags cannot be taken as they are. -/
inductive FlagFault
  /-- Not a fault but a question. -/
  | help
  | badSyntax (arg : Text)
  | undefined (name : Text)
  | missingValue (name : Text)
  | badTruthValue (value name : Text)
deriving DecidableEq, Repr

/-- The wording of a fault; a question has none. -/
def FlagFault.message : FlagFault → Text
  | help => []
  | badSyntax arg => "bad flag syntax: " ++ arg ++ "\n"
  | undefined name => "flag provided but not defined: -" ++ name ++ "\n"
  | missingValue name => "flag needs an argument: -" ++ name ++ "\n"
  | badTruthValue value name =>
    "invalid boolean value " ++ Text.quote value ++ " for -" ++ name ++ ": parse error\n"

/-- The ways to write that a switch is on. -/
def onWords : List Text := ["1", "t", "T", "TRUE", "true", "True"]

/-- The ways to write that a switch is off. -/
def offWords : List Text := ["0", "f", "F", "FALSE", "false", "False"]

/-- The truth value that a word stands for. -/
def truthValue? (word : Text) : Option Bool :=
  if onWords.contains word then some true
  else if offWords.contains word then some false
  else none

/-- A flag as it is written: its name, and its value if that follows an equals sign. -/
structure WrittenFlag where
  name : Text
  value : Option Text
deriving DecidableEq, Repr

/-- Splits a flag after its hyphens. The name has at least one byte, so an equals sign cannot be the
first. -/
def splitFlag (t : Text) : WrittenFlag :=
  match t with
  | [] => ⟨[], none⟩
  | first :: rest =>
    let name := rest.takeWhile (· ≠ Text.byte '=')
    ⟨first :: name, ((rest.drop name.length).head?).map fun _ => rest.drop (name.length + 1)⟩

/-- What an argument is. -/
inductive ArgKind
  | plain
  | endOfFlags
  | malformed
  | flag (written : WrittenFlag)
deriving DecidableEq, Repr

/-- What an argument is. -/
def argKind (arg : Text) : ArgKind :=
  let hyphen := Text.byte '-'
  match arg with
  | first :: second :: rest =>
    if first ≠ hyphen then .plain
    else if second = hyphen ∧ rest.isEmpty then .endOfFlags
    else
      let body := if second = hyphen then rest else second :: rest
      if body.head? = some hyphen ∨ body.head? = some (Text.byte '=') then .malformed
      else .flag (splitFlag body)
  | _ => .plain

/-- The names that ask for help unless a flag has them. -/
def helpNames : List Text := ["help", "h"]

/-- Reads flags up to their end, and leaves the other arguments. -/
def parseFlags (uses : List FlagUse) (o : Options) :
    List Text → Except FlagFault (Options × List Text)
  | [] => .ok (o, [])
  | arg :: rest =>
    match argKind arg with
    | .plain => .ok (o, arg :: rest)
    | .endOfFlags => .ok (o, rest)
    | .malformed => .error (.badSyntax arg)
    | .flag ⟨name, value⟩ =>
      match uses.find? fun use => use.flag.name = name with
      | none => .error (if helpNames.contains name then .help else .undefined name)
      | some use =>
        if use.flag.isSwitch then
          match value with
          | none => parseFlags uses (use.flag.switch true o) rest
          | some word =>
            match truthValue? word with
            | none => .error (.badTruthValue word name)
            | some on => parseFlags uses (use.flag.switch on o) rest
        else
          match value, rest with
          | some value, rest => parseFlags uses (use.flag.setTo value o) rest
          | none, [] => .error (.missingValue name)
          | none, value :: rest => parseFlags uses (use.flag.setTo value o) rest

end WatCompiler.CommandLine
