import WatCompiler.Program.OfTree
import WatCompiler.SyntaxTree.Statement
import WatCompiler.Typing
import WatCompiler.Wat.OfProgram

/-!
# Compiling sources

From the text of a program to the text of its module: syntax tree, program, types, code. The first
stage that refuses the source gives the answer.
-/

namespace WatCompiler

/-- Why a source is refused. -/
inductive Rejection
  | grammar (e : Located SyntaxTree.Fault)
  | form (e : Located Program.Fault)
  | typing (e : Located Typing.Fault)
  | code (fault : Code.Fault)
deriving DecidableEq, Repr

/-- The classes of errors that messages name. -/
inductive ErrorClass
  | parse
  | type
  | compile
deriving DecidableEq, Repr

/-- The name of a class of errors. -/
def ErrorClass.name : ErrorClass → Text
  | parse => "ParseError"
  | type => "TypeError"
  | compile => "CompileError"

namespace Rejection

/-- The class of an error. -/
def errorClass : Rejection → ErrorClass
  | grammar _ | form _ => .parse
  | typing _ => .type
  | code _ => .compile

/-- What is wrong. -/
def what : Rejection → Text
  | grammar e => e.what.message
  | form e => e.what.message
  | typing e => e.what.message
  | code fault => fault.message

/-- Where the fault is; faults of code have no place. -/
def pos : Rejection → Position
  | grammar e => e.pos
  | form e => e.pos
  | typing e => e.pos
  | code _ => .unknown

/-- The wording of an error. -/
def message (r : Rejection) : Text := r.pos.report r.errorClass.name r.what

end Rejection

/-- The program of a source. -/
def parseProgram (source : Text) : Except Rejection (Program Unit) := do
  let tree ← (SyntaxTree.parse source).mapError .grammar
  (Program.ofTree source tree).mapError .form

/-- The program of a source with its types. -/
def checkSource (source : Text) : Except Rejection (Program Ty) := do
  let program ← parseProgram source
  program.check.mapError .typing

/-- The module of a source. -/
def compile (source : Text) : Except Rejection Text := do
  let program ← checkSource source
  program.toWat.mapError .code

end WatCompiler
