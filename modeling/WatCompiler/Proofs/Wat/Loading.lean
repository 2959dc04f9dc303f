import WatCompiler.Compile
import WatCompiler.Module.Reader
import WatCompiler.Proofs.Datum.Spelling
import WatCompiler.Proofs.Evaluation
import WatCompiler.Proofs.Program.Names
import WatCompiler.Proofs.Wat.Valid

/-!
# Generated modules load

The module of a program is loaded as what the program says: its global variables with their initial
values, a function with one result for each of its functions, and an exported function for its
top-level statements (`IsModule`). Here each field of the module is read; the names of the program
have to be identifiers, so that its code has a written form.
-/

namespace WatCompiler

open Token (isIdentifier)
open Layout (data)

namespace Code

/-- The code of a literal is its word. -/
theorem literal_eq_ok {value : Literal} {word : Int32} (h : literal value = .ok word) :
    word = value.word := by
  cases value <;> cases h <;> rfl

/-- The names of a function's own variables. -/
def ownNames (f : FuncDef Ty) : List Text := f.params.map Param.name ++ f.locals.map VarDef.name

/-- A function of a module that is the code of a function of the program: it gives its local
variables their values, does its statements and returns zero. -/
structure IsFunction (f : FuncDef Ty) (g : Func) : Prop where
  name : g.name = some (identifier f.name)
  exported : g.exported = none
  params : g.params = f.params.map fun p => identifier p.name
  locals : g.locals = scratch :: f.locals.map fun v => identifier v.name
  hasResult : g.hasResult = true
  body : ∃ init code next, initialValues f.locals = .ok init ∧
    stmts (ownNames f) 1 f.stmts = .ok (code, next) ∧
    g.body = data (lines init ++ code ++ lines [.const 0, .ret])

/-- The exported function of a module that is the code of statements. -/
structure IsEntry (stmts : List (Stmt Ty)) (g : Func) : Prop where
  name : g.name = none
  params : g.params = []
  locals : g.locals = [scratch]
  hasResult : g.hasResult = false
  body : ∃ code next, Code.stmts [] 1 stmts = .ok (code, next) ∧ g.body = data code

/-- A module that is the code of a program. -/
structure IsModule (p : Program Ty) (m : Module) : Prop where
  globals : m.globals = p.globals.map fun v => (identifier v.name, v.literal.word)
  imports : m.imports = Host.all.map fun host => (identifier host.name, host)
  functions : ∃ gs, List.Forall₂ IsFunction p.functions gs ∧ m.functions = gs ++ [m.entry]
  entry : IsEntry p.stmts m.entry

theorem identifier_injective {name other : Text} (h : identifier name = identifier other) :
    name = other :=
  (List.cons.inj h).2

end Code

/-! ## Fields -/

namespace Module.Draft

open Code

/-- Fields are loaded one after the other. -/
theorem withFields_append (draft : Draft) (fields more : List Datum) :
    draft.withFields (fields ++ more) =
      draft.withFields fields >>= fun draft => draft.withFields more := by
  induction fields generalizing draft with
  | nil => rfl
  | cons field rest ih =>
    rw [List.cons_append, withFields, withFields]
    cases draft.withField field with
    | error fault => rfl
    | ok next => exact ih next

section Declarations

variable (draft : Draft) (name exported : Option Text) (params locals : List Text)
  (hasResult : Bool)

/-- Parameters are added in order. -/
theorem withFunctionItems_params (names : List Text) (items : List Datum) :
    draft.withFunctionItems ⟨name, exported, params, locals, hasResult, []⟩
        (names.map (declaration "param") ++ items) =
      draft.withFunctionItems ⟨name, exported, params ++ names, locals, hasResult, []⟩ items := by
  induction names generalizing params with
  | nil => rw [List.append_nil]; rfl
  | cons param rest ih =>
    have hstep := ih (params ++ [param])
    rw [List.append_assoc] at hstep
    exact hstep

theorem withFunctionItems_result (items : List Datum) :
    draft.withFunctionItems ⟨name, exported, params, locals, hasResult, []⟩ (result :: items) =
      draft.withFunctionItems ⟨name, exported, params, locals, true, []⟩ items :=
  rfl

/-- And so are local variables. -/
theorem withFunctionItems_locals (names : List Text) (items : List Datum) :
    draft.withFunctionItems ⟨name, exported, params, locals, hasResult, []⟩
        (names.map (declaration "local") ++ items) =
      draft.withFunctionItems ⟨name, exported, params, locals ++ names, hasResult, []⟩ items := by
  induction names generalizing locals with
  | nil => rw [List.append_nil]; rfl
  | cons var rest ih =>
    have hstep := ih (locals ++ [var])
    rw [List.append_assoc] at hstep
    exact hstep

/-- The first instruction ends the declarations of a function. -/
theorem withFunctionItems_body {items : List Datum} (h : ∀ d ∈ items, d.Written) :
    draft.withFunctionItems ⟨name, exported, params, locals, hasResult, []⟩ items =
      draft.withFunction ⟨name, exported, params, locals, hasResult, items⟩ := by
  cases items with
  | nil => rfl
  | cons d rest =>
    obtain ⟨op, hop⟩ := (h d List.mem_cons_self).head
    have hwords : ∀ op ∈ Opcode.all, op.name ≠ Text.ofString "import" ∧
        op.name ≠ Text.ofString "export" ∧ op.name ≠ Text.ofString "param" ∧
        op.name ≠ Text.ofString "result" ∧ op.name ≠ Text.ofString "local" := by
      decide +kernel
    obtain ⟨himport, hexport, hparam, hresult, hlocal⟩ := hwords op op.mem_all
    rw [← hop] at himport hexport hparam hresult hlocal
    rw [withFunctionItems, if_neg himport, if_neg hexport, if_neg hparam, if_neg hresult,
      if_neg hlocal]

end Declarations

theorem withField_import (draft : Draft) (host : Host) :
    draft.withField (importField host).datum =
      .ok { draft with imports := draft.imports.insert (identifier host.name) host } := by
  cases host <;> rfl

theorem withFields_imports (draft : Draft) (hosts : List Host) :
    draft.withFields (hosts.map fun host => (importField host).datum) =
      .ok { draft with
        imports := hosts.foldl (fun table host => table.insert (identifier host.name) host)
          draft.imports } := by
  induction hosts generalizing draft with
  | nil => rfl
  | cons host rest ih =>
    rw [List.map_cons, withFields, withField_import]
    exact ih _

/-- A global variable is loaded with its initial value. -/
theorem withField_global {v : VarDef Ty} {layout : Layout} (h : globalField v = .ok layout)
    (draft : Draft) :
    draft.withField layout.datum =
      .ok { draft with
        globals := draft.globals.insert (identifier v.name) v.literal.word } := by
  obtain ⟨word, hword, rfl⟩ := globalField_eq_ok.mp h
  cases literal_eq_ok hword
  have hfield : ∀ value word, value.constant = .ok word →
      draft.withField (Layout.line (.form [.symbol "global", .symbol (identifier v.name),
        .form [.symbol "mut", .symbol "i32"], value])).datum =
      .ok { draft with globals := draft.globals.insert (identifier v.name) word } := by
    intro value word hword
    refine (if_pos rfl).trans ?_
    dsimp only [Layout.datum, Datum.form, Datum.items]
    rw [hword]
    rfl
  exact hfield _ _ (Instr.constant_form _)

/-- Global variables with different names are all loaded. -/
theorem withFields_globals {vs : List (VarDef Ty)} {layouts : List Layout}
    (h : globalFields vs = .ok layouts) (draft : Draft)
    (hn : (draft.globals.names ++ vs.map fun v => identifier v.name).Nodup) :
    draft.withFields (data layouts) =
      .ok { draft with
        globals := draft.globals ++ vs.map fun v => (identifier v.name, v.literal.word) } := by
  induction vs generalizing draft layouts with
  | nil =>
    cases h
    rw [List.map_nil, List.append_nil]
    rfl
  | cons v rest ih =>
    obtain ⟨first, hfirst, others, hothers, rfl⟩ := globalFields_cons_eq_ok.mp h
    have hnew : identifier v.name ∉ draft.globals.names := fun hmem =>
      (List.nodup_append.mp hn).2.2 _ hmem _ List.mem_cons_self rfl
    rw [List.map_cons, List.append_cons] at hn
    rw [data, withFields, withField_global hfirst, Table.insert_of_not_mem _ hnew]
    have hrest := ih hothers
      { draft with globals := draft.globals ++ [(identifier v.name, v.literal.word)] }
      (by rw [Table.names_append]; exact hn)
    rw [List.append_assoc] at hrest
    exact hrest

/-- Nothing in the draft has the name of a function. -/
def Lacks (draft : Draft) (name : Text) : Prop := ∀ g ∈ draft.functions, g.name ≠ some name

/-- A function with a new name is added. -/
theorem withFunction_of_lacks {draft : Draft} {g : Func} {name : Text} (hname : g.name = some name)
    (hg : g.exported = none) (h : draft.Lacks name) :
    draft.withFunction g = .ok { draft with functions := draft.functions ++ [g] } := by
  have hnew : (draft.functions.find? fun f => f.name = some name) = none := by
    rw [List.find?_eq_none]
    intro f hf
    simpa using h f hf
  simp only [withFunction, hname, Option.bind_some, hnew, withEntry, hg, Option.isSome_none,
    Bool.false_eq_true, if_false]

theorem data_localFields (names : List Text) :
    data (localFields names) = (scratch :: names.map identifier).map (declaration "local") := by
  rw [data_eq_map, localFields, List.map_map]
  rfl

theorem initialValues_isNamed {vs : List (VarDef Ty)} (hl : ∀ v ∈ vs, isIdentifier v.name = true)
    {init : List Instr} (h : initialValues vs = .ok init) : ∀ i ∈ init, i.IsNamed :=
  forall_mem_initialValues h (fun _ => trivial) fun v hv => Instr.isSymbol_identifier (hl v hv)

/-- All that a function does has a written form. -/
theorem functionBody_written {f : FuncDef Ty} {scope : Scope} (ht : f.WellTyped scope)
    (hs : (f.scope scope).Named) (hf : f.Named) {init : List Instr} {code : List Layout}
    {next : Nat} (hinit : initialValues f.locals = .ok init)
    (hcode : stmts (ownNames f) 1 f.stmts = .ok (code, next)) :
    ∀ d ∈ data (lines init ++ code ++ lines [.const 0, .ret]), d.Written := by
  rw [data_append, data_append]
  refine List.forall_mem_append.mpr ⟨List.forall_mem_append.mpr ⟨?_, ?_⟩, ?_⟩
  · exact lines_written (initialValues_isNamed hf.locals hinit)
  · exact stmts_written hs f.stmts ht.body hcode
  · exact lines_written (by simp [Instr.IsNamed])

/-- The definition of a well-typed function is loaded as its function. -/
theorem withField_function {f : FuncDef Ty} {scope : Scope} (ht : f.WellTyped scope)
    (hs : (f.scope scope).Named) (hf : f.Named) {layout : Layout}
    (h : functionField f = .ok layout) {draft : Draft} (hnew : draft.Lacks (identifier f.name)) :
    ∃ g, IsFunction f g ∧
      draft.withField layout.datum = .ok { draft with functions := draft.functions ++ [g] } := by
  obtain ⟨init, hinit, code, next, hcode, rfl⟩ := functionField_eq_ok.mp h
  refine ⟨⟨some (identifier f.name), none, _, _, true, _⟩,
    ⟨rfl, rfl, rfl, rfl, rfl, init, code, next, hinit, hcode, rfl⟩, ?_⟩
  have hwritten := functionBody_written ht hs hf hinit hcode
  have hparams : ((f.params.map Param.name).map fun name =>
      declaration "param" (identifier name)) =
      (f.params.map fun p => identifier p.name).map (declaration "param") := by
    simp only [List.map_map]
    rfl
  have hlocals : (f.locals.map VarDef.name).map identifier =
      f.locals.map fun v => identifier v.name := List.map_map
  simp only [Layout.datum]
  rw [List.append_assoc (localFields _), List.append_assoc (localFields _), data_append,
    data_localFields, hparams, hlocals]
  have hitems : ∀ items, draft.withField
      (.form ([Datum.symbol "func", .symbol (identifier f.name)] ++ items)) =
        draft.withFunctionItems ⟨some (identifier f.name), none, [], [], false, []⟩ items :=
    fun _ => rfl
  rw [List.append_assoc, List.append_assoc, hitems, withFunctionItems_params,
    List.singleton_append, withFunctionItems_result, withFunctionItems_locals,
    withFunctionItems_body _ _ _ _ _ _ hwritten]
  exact withFunction_of_lacks rfl rfl hnew

/-- All functions are loaded, in their order. -/
theorem withFields_functions {scope : Scope} {fs : List (FuncDef Ty)}
    (ht : ∀ f ∈ fs, f.WellTyped scope ∧ (f.scope scope).Named ∧ f.Named) {layouts : List Layout}
    (h : functionFields fs = .ok layouts) {draft : Draft}
    (hnew : ∀ f ∈ fs, draft.Lacks (identifier f.name)) (hn : (fs.map FuncDef.name).Nodup) :
    ∃ gs, List.Forall₂ IsFunction fs gs ∧ draft.withFields (data layouts) =
      .ok { draft with functions := draft.functions ++ gs } := by
  induction fs generalizing draft layouts with
  | nil =>
    cases h
    refine ⟨[], .nil, ?_⟩
    rw [List.append_nil]
    rfl
  | cons f rest ih =>
    obtain ⟨first, hfirst, others, hothers, rfl⟩ := functionFields_cons_eq_ok.mp h
    obtain ⟨⟨htf, hsf, hf⟩, htrest⟩ := List.forall_mem_cons.mp ht
    obtain ⟨hnewf, hnewrest⟩ := List.forall_mem_cons.mp hnew
    obtain ⟨hfresh, hnrest⟩ := List.nodup_cons.mp hn
    obtain ⟨g, hg, hfield⟩ := withField_function htf hsf hf hfirst hnewf
    have hlacks : ∀ f' ∈ rest,
        Lacks { draft with functions := draft.functions ++ [g] } (identifier f'.name) := by
      intro f' hf' g' hg'
      rcases List.mem_append.mp hg' with hg' | hg'
      · exact hnewrest f' hf' g' hg'
      · rw [List.mem_singleton.mp hg', hg.name]
        intro e
        refine hfresh (List.mem_map.mpr ⟨f', hf', ?_⟩)
        exact (identifier_injective (Option.some.inj e)).symm
    obtain ⟨gs, hgs, hfields⟩ := ih htrest hothers hlacks hnrest
    refine ⟨g :: gs, .cons hg hgs, ?_⟩
    rw [data, withFields, hfield]
    rw [List.append_assoc] at hfields
    exact hfields

/-- The top-level code is loaded as the entry. -/
theorem withField_entry {body : List (Stmt Ty)} {scope : Scope} (ht : StmtsTyped scope body)
    (hs : scope.Named) {layout : Layout} (h : entryField body = .ok layout) {draft : Draft}
    (hd : draft.entry = none) :
    ∃ g, IsEntry body g ∧ g.exported = some "exported_func" ∧ draft.withField layout.datum =
      .ok { draft with functions := draft.functions ++ [g], entry := some g } := by
  obtain ⟨code, next, hcode, rfl⟩ := entryField_eq_ok.mp h
  refine ⟨⟨none, some "exported_func", _, _, false, _⟩,
    ⟨rfl, rfl, rfl, rfl, code, next, hcode, rfl⟩, rfl, ?_⟩
  have hwritten := stmts_written hs body ht hcode
  have hitems : ∀ items, draft.withField (.form ([Datum.symbol "func",
      Datum.form [.symbol "export", .string "exported_func"]] ++ items)) =
      if draft.entry.isSome || (none : Option Text).isSome then .error .secondExport
      else draft.withFunctionItems ⟨none, some "exported_func", [], [], false, []⟩ items :=
    fun _ => rfl
  simp only [Layout.datum]
  rw [hitems, hd, if_neg (by decide), data_append, data_localFields, List.map_nil,
    withFunctionItems_locals, withFunctionItems_body _ _ _ _ _ _ hwritten]
  rfl

end Module.Draft

/-! ## Names in scope -/

theorem builtins_named {name : Text} {signature : Signature}
    (h : (name, signature) ∈ builtins) : isIdentifier name = true := by
  have hall : ∀ entry ∈ builtins, isIdentifier entry.1 = true := by decide +kernel
  exact hall _ h

/-- The names in the scope of a program are identifiers. -/
theorem Program.Named.scope {p : Program Ty} (h : p.Named) : p.scope.Named := by
  constructor
  · intro name type hname
    have hglobal : p.scope.globals.find? name = some type := hname
    obtain ⟨v, hv, he⟩ := List.mem_map.mp (Table.mem_of_find? hglobal)
    cases he
    exact h.globals v hv
  · intro name signature hname
    rcases List.mem_append.mp (Table.mem_of_find? hname) with hmem | hmem
    · exact builtins_named hmem
    · obtain ⟨f, hf, he⟩ := List.mem_map.mp hmem
      cases he
      exact (h.functions f hf).name

theorem FuncDef.Named.scope {f : FuncDef Ty} (h : f.Named) {outer : Scope} (ho : outer.Named)
    (hl : outer.locals = none) : (f.scope outer).Named := by
  refine ⟨?_, ho.functions⟩
  intro name type hname
  have hlookup : (f.localTypes.find? name <|> outer.globals.find? name) = some type := hname
  cases hlocal : f.localTypes.find? name with
  | some found =>
    rcases List.mem_append.mp (Table.mem_of_find? hlocal) with hmem | hmem
    · obtain ⟨q, hq, he⟩ := List.mem_map.mp hmem
      cases he
      exact h.params q hq
    · obtain ⟨v, hv, he⟩ := List.mem_map.mp hmem
      cases he
      exact h.locals v hv
  | none =>
    rw [hlocal] at hlookup
    have houter : outer.lookup? name = some type := by
      rw [Scope.lookup?, Scope.local?, hl]
      exact hlookup
    exact ho.vars houter

end WatCompiler
