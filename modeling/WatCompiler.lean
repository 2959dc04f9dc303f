import WatCompiler.Main
import WatCompiler.TestCase
import WatCompiler.Proofs.CommandLine.FileSafety
import WatCompiler.Proofs.Compile.Outcomes
import WatCompiler.Proofs.Compile.Parentheses
import WatCompiler.Proofs.Compile.Reordering
import WatCompiler.Proofs.Datum.Concatenation
import WatCompiler.Proofs.Datum.Matching
import WatCompiler.Proofs.Datum.SelfMatching
import WatCompiler.Proofs.Dump.Faithful
import WatCompiler.Proofs.Globals.Soundness
import WatCompiler.Proofs.Guarantee.Returns
import WatCompiler.Proofs.Guarantee.Soundness
import WatCompiler.Proofs.Host.Powers
import WatCompiler.Proofs.Numerals.Values
import WatCompiler.Proofs.Position.Counting
import WatCompiler.Proofs.Representation.Soundness
import WatCompiler.Proofs.Simulation.Correctness
import WatCompiler.Proofs.Source.Faithful
import WatCompiler.Proofs.Source.Programs
import WatCompiler.Proofs.Source.RoundTrip
import WatCompiler.Proofs.SyntaxTree.Lossless
import WatCompiler.Proofs.SyntaxTree.Precedence
import WatCompiler.Proofs.TestCase.Sections
import WatCompiler.Proofs.Token.BlankLines
import WatCompiler.Proofs.Token.LineEndings
import WatCompiler.Proofs.Token.LineJoining
import WatCompiler.Proofs.Token.LineStructure
import WatCompiler.Proofs.Typing.Annotating
import WatCompiler.Proofs.Validation.Entry
import WatCompiler.Proofs.Validation.FieldOrder
import WatCompiler.Proofs.Validation.Soundness
import WatCompiler.Proofs.Validation.Truncation
import WatCompiler.Proofs.Wat.Labels
