import WatCompiler.Datum.Reader
import WatCompiler.Module.Validation

/-!
# Reading modules

A module is one datum, `(module ...)`, whose fields are globals and functions. What stands first in
a function are its name and its declarations; the rest is its body. Every function is validated
once all fields are known, so fields can come in any order.
-/

namespace WatCompiler

/-- Why a text is not a module that can run. -/
inductive LoadFault
  | unreadable (e : Datum.ReadError)
  | notAModule (d : Datum)
  | malformedGlobal (field : Datum)
  | badConst (fault : ConstFault)
  | unsupportedField (field : Datum)
  | malformedImport (item : Datum)
  | unknownImport (name : Text)
  | malformedExport (item : Datum)
  | secondExport
  | unnamedParameter (function : Text)
  | malformedLocal (item : Datum)
  | duplicateFunction (name : Text)
  | noExport
  | invalid (function : Text) (fault : ValidationFault)

/-- The wording of a fault. -/
def LoadFault.message : LoadFault → Text
  | unreadable e => "parsing module: " ++ e.message
  | notAModule d => "expected (module ...), got " ++ d.render
  | malformedGlobal field => "malformed global " ++ field.render
  | badConst fault => fault.message
  | unsupportedField field => "unsupported module field " ++ field.render
  | malformedImport item => "malformed import " ++ item.render
  | unknownImport name => "unknown import " ++ name
  | malformedExport item => "malformed export " ++ item.render
  | secondExport => "module has more than one exported function"
  | unnamedParameter function => "unnamed parameter in function " ++ function
  | malformedLocal item => "malformed local " ++ item.render
  | duplicateFunction name => "duplicate function " ++ name
  | noExport => "module has no exported function"
  | invalid function fault => "function " ++ function ++ ": " ++ fault.message

namespace Module

/-- What the fields of a module that were read so far declare. -/
structure Draft where
  globals : Table Int32
  imports : Table Host
  functions : List Func
  entry : Option Func
deriving Repr

namespace Draft

/-- No fields. -/
def empty : Draft := ⟨[], [], [], none⟩

/-- Keeps a function that is exported as the one that runs start with. -/
def withEntry (draft : Draft) (f : Func) : Draft :=
  if f.exported.isSome then { draft with entry := some f } else draft

/-- Adds a function, whose name must be new. -/
def withFunction (draft : Draft) (f : Func) : Except LoadFault Draft :=
  match f.name.bind fun name => draft.functions.find? fun g => g.name = some name with
  | some _ => .error (.duplicateFunction (f.name.getD []))
  | none => .ok { draft.withEntry f with functions := draft.functions ++ [f] }

/-- Reads what follows the name of a function. An import ends the function, and its name then means
the function of the host. -/
def withFunctionItems (draft : Draft) (f : Func) : List Datum → Except LoadFault Draft
  | [] => draft.withFunction f
  | item :: rest =>
    if item.head = "import" then
      match item.items with
      | [_, _, field] =>
        match Host.ofName? field.text with
        | none => .error (.unknownImport field.text)
        | some host =>
          .ok { draft.withEntry f with imports := draft.imports.insert (f.name.getD []) host }
      | _ => .error (.malformedImport item)
    else if item.head = "export" then
      match item.items with
      | [_, name] =>
        if draft.entry.isSome || f.exported.isSome then .error .secondExport
        else draft.withFunctionItems { f with exported := some name.text } rest
      | _ => .error (.malformedExport item)
    else if item.head = "param" then
      match item.items with
      | [_, name, _] =>
        draft.withFunctionItems { f with params := f.params ++ [name.text] } rest
      | _ => .error (.unnamedParameter f.display)
    else if item.head = "result" then
      draft.withFunctionItems { f with hasResult := true } rest
    else if item.head = "local" then
      match item.items with
      | [_, name, _] =>
        draft.withFunctionItems { f with locals := f.locals ++ [name.text] } rest
      | _ => .error (.malformedLocal item)
    else draft.withFunction { f with body := item :: rest }

/-- Reads a field. -/
def withField (draft : Draft) (field : Datum) : Except LoadFault Draft :=
  if field.head = "global" then
    match field.items with
    | [_, name, _, value] =>
      match value.constant with
      | .ok value => .ok { draft with globals := draft.globals.insert name.text value }
      | .error fault => .error (.badConst fault)
    | _ => .error (.malformedGlobal field)
  else if field.head = "func" then
    match field.items.drop 1 with
    | .symbol name :: items => draft.withFunctionItems { Func.empty with name := some name } items
    | items => draft.withFunctionItems .empty items
  else .error (.unsupportedField field)

/-- Reads fields in order. -/
def withFields (draft : Draft) : List Datum → Except LoadFault Draft
  | [] => .ok draft
  | field :: rest => do
    let draft ← draft.withField field
    draft.withFields rest

end Draft

/-- Checks functions in order. -/
def validate (m : Module) : List Func → Except LoadFault Unit
  | [] => .ok ()
  | f :: rest =>
    match Validation.function m f with
    | .error fault => .error (.invalid f.display fault)
    | .ok () => m.validate rest

/-- The module that a datum describes. -/
def ofDatum (d : Datum) : Except LoadFault Module :=
  if d.head = "module" then do
    let draft ← Draft.empty.withFields (d.items.drop 1)
    match draft.entry with
    | none => .error .noExport
    | some entry =>
      let m : Module := ⟨draft.globals, draft.imports, draft.functions, entry⟩
      m.validate m.functions
      pure m
  else .error (.notAModule d)

/-- The module that a text describes. -/
def parse (wat : Text) : Except LoadFault Module :=
  match Datum.parse wat with
  | .error e => .error (.unreadable e)
  | .ok d => ofDatum d

end Module

end WatCompiler
