import WatCompiler.Datum.Reader

/-!
# Test cases in documents

A document holds test cases. Each starts with a heading `Test: name`, and up to the next such
heading its fences give a program and what is expected of it. Headings and fences come from a
Markdown parser, which is not part of this.
-/

namespace WatCompiler

/-- What a Markdown parser finds in a document. -/
inductive Markdown.Block
  /-- A heading, and the line where its text stands. -/
  | heading (text : Text) (line : Nat)
  /-- A fenced code block: the first word after the opening fence, the lines inside, and the line
  where these start, which is one if there are none. -/
  | fence (language content : Text) (line : Nat)
deriving DecidableEq, Repr

/-- What can be expected of a program. -/
inductive Expectation
  /-- A pattern for the program. -/
  | ast
  /-- A pattern for the checked program. -/
  | types
  /-- A pattern for the module. -/
  | wat
  /-- A part of an error message. -/
  | compileError
  /-- What the program prints. -/
  | execute
deriving DecidableEq, Repr

namespace Expectation

/-- The language of fences that state an expectation. -/
def language : Expectation → Text
  | ast => "ast"
  | types => "types"
  | wat => "wat"
  | compileError => "compile-error"
  | execute => "execute"

/-- All expectations. -/
def all : List Expectation := [ast, types, wat, compileError, execute]

/-- The expectation that fences of a language state. -/
def ofLanguage? (t : Text) : Option Expectation := all.find? fun e => e.language == t

/-- Whether an expectation is a pattern. -/
def isPattern : Expectation → Bool
  | ast | types | wat => true
  | compileError | execute => false

end Expectation

/-- An expectation with the text that states it; patterns are also read. -/
structure Assertion where
  kind : Expectation
  content : Text
  pattern : Option Datum
  line : Nat
deriving Repr

/-- A test case. -/
structure TestCase where
  name : Text
  input : Text
  line : Nat
  assertions : List Assertion
deriving Repr

namespace TestCase

/-- Why a document has no test cases that could be used. -/
inductive Fault
  | outside (line : Nat) (language : Text)
  | unknownOutside (line : Nat) (language : Text)
  | unknownInside (line : Nat) (language name : Text)
  | secondInput (line : Nat) (name : Text)
  | badPattern (line : Nat) (name : Text) (e : Datum.ReadError)
  | noInput (name : Text)
  | noAssertions (name : Text)

/-- What is wrong. -/
def Fault.message : Fault → Text
  | outside line language =>
    "line " ++ Text.ofNat line ++ ": " ++ language ++ " fence found outside of test case"
  | unknownOutside line language =>
    "line " ++ Text.ofNat line ++ ": unknown fence language '" ++ language ++
      "' found outside of test case"
  | unknownInside line language name =>
    "line " ++ Text.ofNat line ++ ": unknown fence language '" ++ language ++
      "' in test '" ++ name ++ "'"
  | secondInput line name =>
    "line " ++ Text.ofNat line ++ ": multiple input fences found in test '" ++ name ++ "'"
  | badPattern line name e =>
    "line " ++ Text.ofNat line ++ ": failed to parse assertion in test '" ++ name ++
      "': " ++ e.message
  | noInput name => "test '" ++ name ++ "' has no input fence"
  | noAssertions name => "test '" ++ name ++ "' has no assertion fences"

/-- A fault, met while reading the document or at its end. -/
inductive ExtractError
  | reading (fault : Fault)
  | atEnd (fault : Fault)

/-- The wording of an error. -/
def ExtractError.message : ExtractError → Text
  | reading fault => "error walking markdown AST: " ++ fault.message
  | atEnd fault => fault.message

/-- The language of fences that hold a program. -/
def inputLanguage : Text := "python"

/-- How headings of test cases start. -/
def headingStart : Text := "Test: "

/-- The name of the test case that a heading starts. -/
def name? (heading : Text) : Option Text :=
  if headingStart.isPrefixOf heading then some (heading.drop headingStart.length) else none

/-- The content of a fence without line feeds at its end. -/
def stripped (content : Text) : Text :=
  (content.reverse.dropWhile (· = Text.newline)).reverse

/-- A test case needs a program and something that is expected of it. -/
def finished (t : TestCase) : Except Fault TestCase :=
  if t.input = [] then .error (.noInput t.name)
  else if t.assertions.isEmpty then .error (.noAssertions t.name)
  else .ok t

/-- Adds what a fence holds to a test case. -/
def withFence (t : TestCase) (language content : Text) (line : Nat) : Except Fault TestCase :=
  if language = inputLanguage then
    if t.input = [] then .ok { t with input := stripped content }
    else .error (.secondInput line t.name)
  else
    match Expectation.ofLanguage? language with
    | none => .error (.unknownInside line language t.name)
    | some kind =>
      if kind.isPattern then
        match Datum.parse (stripped content) with
        | .error e => .error (.badPattern line t.name e)
        | .ok pattern =>
          .ok { t with
            assertions := t.assertions ++ [⟨kind, stripped content, some pattern, line⟩] }
      else .ok { t with assertions := t.assertions ++ [⟨kind, stripped content, none, line⟩] }

/-- A fence that stands before all test cases. -/
def strayFence (language : Text) (line : Nat) : Fault :=
  if language = inputLanguage ∨ (Expectation.ofLanguage? language).isSome then
    .outside line language
  else .unknownOutside line language

/-- The test cases in blocks; `current` is the one that was started before them. Fences without a
language do not count. -/
def ofBlocks (current : Option TestCase) : List Markdown.Block → Except ExtractError (List TestCase)
  | [] =>
    match current with
    | none => .ok []
    | some t => (t.finished.map fun t => [t]).mapError .atEnd
  | .heading text line :: rest =>
    match name? text with
    | none => ofBlocks current rest
    | some name =>
      match current with
      | none => ofBlocks (some ⟨name, [], line, []⟩) rest
      | some t => do
        let t ← t.finished.mapError .reading
        let others ← ofBlocks (some ⟨name, [], line, []⟩) rest
        pure (t :: others)
  | .fence language content line :: rest =>
    if language = [] then ofBlocks current rest
    else
      match current with
      | none => .error (.reading (strayFence language line))
      | some t => do
        let t ← (t.withFence language content line).mapError .reading
        ofBlocks (some t) rest

/-- The test cases of a document, whose headings and fences a parser finds. -/
def extract (blocks : Text → List Markdown.Block) (document : Text) :
    Except ExtractError (List TestCase) :=
  ofBlocks none (blocks document)

end TestCase

end WatCompiler
