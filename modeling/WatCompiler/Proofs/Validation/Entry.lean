import WatCompiler.Proofs.Validation.Forms
import WatCompiler.Proofs.Validation.Soundness

/-!
# The function that runs start with

Reading a module validates its functions and keeps the exported one for runs to start with. An
export in front of an import is kept as well, but such a function is an import: it has no code, and
it is not among the functions that are validated (`entry_of_parse`). Nor does a run have arguments
for the parameters of the exported function. Apart from these two cases every run is safe
(`run_safe_iff`).
-/

namespace WatCompiler

/-! ## Exported imports -/

/-- Of the declarations of a function, one is an import, and an export stands in front of it. An
export that was met already counts. -/
def importsExported (exported : Bool) : List Datum → Bool
  | [] => false
  | item :: rest =>
    if item.head = "import" then exported
    else if item.head = "export" then importsExported true rest
    else if item.head = "param" ∨ item.head = "result" ∨ item.head = "local" then
      importsExported exported rest
    else false

/-- What follows the name of a function, if it has one. -/
def afterName : List Datum → List Datum
  | .symbol _ :: items => items
  | items => items

theorem afterName_of_ne {items : List Datum} (h : ∀ name rest, items ≠ .symbol name :: rest) :
    afterName items = items := by
  unfold afterName
  split
  · next name rest => exact absurd rfl (h name rest)
  · rfl

/-- A field of a module is a function that is exported and then imported. -/
def Datum.isExportedImport (field : Datum) : Bool :=
  decide (field.head = "func") && importsExported false (afterName (field.items.drop 1))

namespace Module.Draft

/-- Where the exported function is: nowhere yet, among the functions, or outside of them. In the
last case it is an import, and has no code. -/
inductive Enters (draft : Draft) : Bool → Prop
  | nowhere (entry : draft.entry = none) (others : ∀ g ∈ draft.functions, g.exported = none) :
      Enters draft false
  | inside {f : Func} (entry : draft.entry = some f) (mem : f ∈ draft.functions) :
    Enters draft false
  | outside {f : Func} (entry : draft.entry = some f) (exported : f.exported ≠ none)
      (body : f.body = []) (others : ∀ g ∈ draft.functions, g.exported = none) : Enters draft true

theorem withEntry_of_some {draft : Draft} {f : Func} {name : Text} (h : f.exported = some name) :
    draft.withEntry f = { draft with entry := some f } := by
  rw [withEntry, if_pos (Option.isSome_of_eq_some h)]

theorem withEntry_of_none {draft : Draft} {f : Func} (h : f.exported = none) :
    draft.withEntry f = draft := by
  rw [withEntry, if_neg (by rw [h]; exact Bool.false_ne_true)]

/-- Before another function is exported, the exported function is nowhere. -/
theorem Enters.of_entry_eq_none {draft : Draft} {imported : Bool} (h : draft.Enters imported)
    (hnone : draft.entry = none) :
    imported = false ∧ ∀ g ∈ draft.functions, g.exported = none := by
  cases h with
  | nowhere entry others => exact ⟨rfl, others⟩
  | inside entry mem => rw [hnone] at entry; cases entry
  | outside entry exported body others => rw [hnone] at entry; cases entry

variable {draft draft' : Draft} {imported : Bool}

/-- Globals and imports do not matter. -/
theorem Enters.of_eq (h : draft.Enters imported) (hentry : draft'.entry = draft.entry)
    (hfunctions : draft'.functions = draft.functions) : draft'.Enters imported := by
  cases h with
  | nowhere entry others => exact .nowhere (hentry.trans entry) (hfunctions ▸ others)
  | inside entry mem => exact .inside (hentry.trans entry) (hfunctions ▸ mem)
  | outside entry exported body others =>
    exact .outside (hentry.trans entry) exported body (hfunctions ▸ others)

theorem enters_withFunction {f : Func} (hnext : draft.withFunction f = .ok draft')
    (h : draft.Enters imported) (hf : f.exported.isSome = true → draft.entry = none) :
    draft'.Enters imported := by
  unfold withFunction at hnext
  split at hnext
  · cases hnext
  cases hnext
  cases hexported : f.exported with
  | some name =>
    obtain ⟨rfl, -⟩ := h.of_entry_eq_none (hf (Option.isSome_of_eq_some hexported))
    rw [withEntry_of_some hexported]
    exact .inside rfl (List.mem_append_right _ (List.mem_singleton_self f))
  | none =>
    rw [withEntry_of_none hexported]
    have hothers : (∀ g ∈ draft.functions, g.exported = none) →
        ∀ g ∈ draft.functions ++ [f], g.exported = none := fun hothers =>
      List.forall_mem_append.mpr ⟨hothers, List.forall_mem_singleton.mpr hexported⟩
    cases h with
    | nowhere entry others => exact .nowhere entry (hothers others)
    | inside entry mem => exact .inside entry (List.mem_append_left _ mem)
    | outside entry exported body others => exact .outside entry exported body (hothers others)

/-- An import ends a function that has no code. -/
theorem enters_import {f : Func} (h : draft.Enters imported) (hbody : f.body = [])
    (hf : f.exported.isSome = true → draft.entry = none) (imports : Table Host) :
    Enters { draft.withEntry f with imports := imports } (imported || f.exported.isSome) := by
  cases hexported : f.exported with
  | some name =>
    obtain ⟨rfl, hothers⟩ := h.of_entry_eq_none (hf (Option.isSome_of_eq_some hexported))
    rw [withEntry_of_some hexported]
    exact .outside rfl (by rw [hexported]; exact Option.some_ne_none name) hbody hothers
  | none =>
    rw [withEntry_of_none hexported, Option.isSome_none, Bool.or_false]
    exact h.of_eq rfl rfl

theorem enters_withFunctionItems {items : List Datum} :
    ∀ {f : Func}, draft.withFunctionItems f items = .ok draft' → draft.Enters imported →
      f.body = [] → (f.exported.isSome = true → draft.entry = none) →
      draft'.Enters (imported || importsExported f.exported.isSome items) := by
  -- The function is complete at an import, at the first instruction or at the end. Up to there it
  -- has no code, and if it was exported no other function was.
  induction items with
  | nil =>
    intro f hnext h _ hf
    rw [importsExported, Bool.or_false]
    exact enters_withFunction hnext h hf
  | cons item rest ih =>
    intro f hnext h hbody hf
    simp only [withFunctionItems] at hnext
    rw [importsExported]
    split at hnext
    · next himport =>
      rw [if_pos himport]
      split at hnext
      · split at hnext
        · cases hnext
        · cases hnext
          exact enters_import h hbody hf _
      · cases hnext
    next himport =>
    rw [if_neg himport]
    split at hnext
    · next hexport =>
      rw [if_pos hexport]
      split at hnext
      · split at hnext
        · cases hnext
        · next hfirst =>
          rw [Bool.or_eq_true, not_or] at hfirst
          exact ih hnext h hbody fun _ => Option.not_isSome_iff_eq_none.mp hfirst.1
      · cases hnext
    next hexport =>
    rw [if_neg hexport]
    split at hnext
    · next hparam =>
      rw [if_pos (.inl hparam)]
      split at hnext
      · have hrest := ih hnext h hbody hf
        exact hrest
      · cases hnext
    next hparam =>
    split at hnext
    · next hresult =>
      rw [if_pos (.inr (.inl hresult))]
      have hrest := ih hnext h hbody hf
      exact hrest
    next hresult =>
    split at hnext
    · next hlocal =>
      rw [if_pos (.inr (.inr hlocal))]
      split at hnext
      · have hrest := ih hnext h hbody hf
        exact hrest
      · cases hnext
    · next hlocal =>
      rw [if_neg
        (by simp only [hparam, hresult, hlocal, or_self, not_false_eq_true]), Bool.or_false]
      exact enters_withFunction hnext h hf

theorem enters_withField {field : Datum} (h : draft.Enters imported)
    (hnext : draft.withField field = .ok draft') :
    draft'.Enters (imported || field.isExportedImport) := by
  unfold withField at hnext
  unfold Datum.isExportedImport
  split at hnext
  · next hglobal =>
    have hfunc : ¬ field.head = "func" := by
      rw [hglobal]
      decide
    rw [decide_eq_false hfunc, Bool.false_and, Bool.or_false]
    split at hnext
    · split at hnext
      · cases hnext
        exact h.of_eq rfl rfl
      · cases hnext
    · cases hnext
  split at hnext
  · next hfunc =>
    rw [decide_eq_true hfunc, Bool.true_and]
    have hfresh : Func.empty.exported.isSome = true → draft.entry = none := by
      intro hsome
      cases hsome
    split at hnext
    · next hnamed =>
      rw [hnamed]
      exact enters_withFunctionItems hnext h rfl hfresh
    · next hunnamed =>
      rw [afterName_of_ne hunnamed]
      exact enters_withFunctionItems hnext h rfl hfresh
  · cases hnext

theorem enters_withFields {fields : List Datum} (h : draft.Enters imported)
    (hnext : draft.withFields fields = .ok draft') :
    draft'.Enters (imported || fields.any Datum.isExportedImport) := by
  induction fields generalizing draft imported with
  | nil =>
    cases hnext
    rwa [List.any_nil, Bool.or_false]
  | cons field rest ih =>
    obtain ⟨next, hfield, hrest⟩ := bind_eq_ok.mp hnext
    rw [List.any_cons, ← Bool.or_assoc]
    exact ih (enters_withField h hfield) hrest

end Module.Draft

/-! ## Runs -/

/-- The fields that a module was read from. -/
theorem draft_of_parse {wat : Text} {m : Module} (h : Module.parse wat = .ok m) :
    ∃ d draft, Datum.parse wat = .ok d ∧
      Module.Draft.empty.withFields (d.items.drop 1) = .ok draft ∧ draft.functions = m.functions ∧
      draft.entry = some m.entry ∧ m.validate m.functions = .ok () := by
  unfold Module.parse at h
  split at h
  · cases h
  next d hd =>
  unfold Module.ofDatum at h
  split at h
  · obtain ⟨draft, hdraft, h⟩ := bind_eq_ok.mp h
    split at h
    · cases h
    next entry hentry =>
    obtain ⟨⟨⟩, hvalid, h⟩ := bind_eq_ok.mp h
    cases h
    exact ⟨d, draft, hd, hdraft, rfl, hentry, hvalid⟩
  · cases h

/-- The exported function of a module is one of the functions of the module, or it is an import and
has no code. -/
theorem entry_of_parse {wat : Text} {m : Module} (h : Module.parse wat = .ok m) :
    ∃ d, Datum.parse wat = .ok d ∧
      (m.entry ∈ m.functions ↔ ∀ field ∈ d.items.drop 1, field.isExportedImport = false) ∧
      (m.entry ∉ m.functions → m.entry.body = []) := by
  obtain ⟨d, draft, hd, hdraft, hfunctions, hentry, -⟩ := draft_of_parse h
  have henters := Module.Draft.enters_withFields (.nowhere rfl (List.forall_mem_nil _)) hdraft
  rw [Bool.false_or] at henters
  refine ⟨d, hd, ?_⟩
  have hnone : (∀ field ∈ d.items.drop 1, field.isExportedImport = false) ↔
      (d.items.drop 1).any Datum.isExportedImport = false := by
    rw [List.any_eq_false]
    simp only [Bool.not_eq_true]
  rw [hnone]
  generalize (d.items.drop 1).any Datum.isExportedImport = imported at henters
  cases henters with
  | nowhere hnowhere =>
    rw [hentry] at hnowhere
    cases hnowhere
  | inside hsome mem =>
    rw [hentry, Option.some.injEq] at hsome
    rw [← hsome, hfunctions] at mem
    exact ⟨iff_of_true mem rfl, fun hmem => absurd mem hmem⟩
  | outside hsome exported body others =>
    rw [hentry, Option.some.injEq] at hsome
    rw [hfunctions] at others
    rw [← hsome] at exported body
    exact ⟨iff_of_false (fun hmem => exported (others _ hmem)) nofun, fun _ => body⟩

namespace Machine

variable {m : Module} {limit fuel : Nat} {room : Option Nat}

/-- Without values for its parameters a function cannot start. -/
theorem run_of_params (h : m.entry.params ≠ []) :
    (ofModule m limit).run room fuel = some ⟨ofModule m limit, [], some .missingPart⟩ := by
  have hstart : (ofModule m limit).start? room = none := by
    show Option.map _ (Option.map _ (bindParams [] m.entry.params [])) = none
    cases hparams : m.entry.params with
    | nil => exact absurd hparams h
    | cons param rest => rfl
  rw [run, hstart]

/-- A function without code has nothing to give back. -/
theorem run_of_body (hparams : m.entry.params = []) (hbody : m.entry.body = [])
    (hresult : m.entry.hasResult = true) :
    (ofModule m limit).run room 2 = some ⟨ofModule m limit, [],
      some (.trap (.finalHeight m.entry.display 0 1))⟩ := by
  have hstart : (ofModule m limit).start? room = some ⟨m.globals, 0, .empty room,
      ⟨m.entry, m.entry.locals.foldl (fun table name => table.insert name 0) [], .empty,
        [.seq m.entry.body]⟩, []⟩ := by
    show Option.map _ (Option.map _ (bindParams [] m.entry.params [])) = _
    rw [hparams]
    rfl
  have hresults : m.entry.results = 1 := by rw [Func.results, if_pos hresult]
  rw [run, hstart, hbody]
  show Option.map _
    (State.runFor m limit 1 ⟨m.globals, 0, .empty room, ⟨m.entry, _, .empty, []⟩, []⟩) = _
  rw [State.runFor, State.step, State.fallOff]
  simp only [hresults]
  rfl

/-- A function without parameters can start. -/
theorem start?_of_params (h : m.entry.params = []) :
    ∃ a, m.entry.activate? [] = some a ∧
      (ofModule m limit).start? room = some ⟨m.globals, 0, .empty room, a, []⟩ := by
  have hargs : ([] : List Int32).length = m.entry.params.length := by
    rw [h]
    rfl
  obtain ⟨a, ha⟩ := Validation.activate?_eq_some hargs
  refine ⟨a, ha, ?_⟩
  show Option.map _ (m.entry.activate? []) = _
  rw [ha]
  rfl

/-- A run fails only in an ordinary way if the code that it starts with is valid. -/
theorem isOrdinary_of_run (hm : Validation.ValidModule m)
    (hentry : Validation.Runs m m.entry [] 0 m.entry.body m.entry.results)
    (hparams : m.entry.params = []) {r : Run} {failure : Failure}
    (hrun : (ofModule m limit).run room fuel = some r) (hfailure : r.failure = some failure) :
    failure.IsOrdinary := by
  obtain ⟨a, ha, hstart⟩ := start?_of_params hparams
  rw [run, hstart] at hrun
  obtain ⟨⟨t, ended⟩, ht, rfl⟩ := Option.map_eq_some_iff.mp hrun
  have hended : ended = some failure := hfailure
  subst hended
  exact Validation.isOrdinary_of_runFor hm (Validation.sound_start hentry ha _ _ _) ht

end Machine

/-- No code is valid in a function that gives nothing back. -/
theorem Validation.runs_nil {m : Module} {f : Func} (hbody : f.body = [])
    (hresult : f.hasResult = false) : Validation.Runs m f [] 0 f.body f.results := by
  have hresults : f.results = 0 := by rw [Func.results, hresult]; rfl
  rw [hbody, hresults]
  exact ⟨List.forall_mem_nil _, [], ⟨0, false⟩, by simp [hasLabel], seq_nil _, rfl⟩

/-- **Which runs are safe.** The exported function of a module is among the functions that were
validated unless a field exports and then imports it. Whatever the limit of steps is and however
much output is taken, all failures of runs of the fresh machine are ordinary if and only if the
exported function takes no parameters, and was validated or gives nothing back. -/
theorem run_safe_iff {wat : Text} {m : Module} (h : Module.parse wat = .ok m) :
    (∀ f ∈ m.functions, Validation.function m f = .ok ()) ∧
    (∃ d, Datum.parse wat = .ok d ∧
      (m.entry ∈ m.functions ↔ ∀ field ∈ d.items.drop 1, field.isExportedImport = false)) ∧
    ∀ limit room,
      (∀ fuel r failure, (Machine.ofModule m limit).run room fuel = some r →
        r.failure = some failure → failure.IsOrdinary) ↔
      m.entry.params = [] ∧ (m.entry ∈ m.functions ∨ m.entry.hasResult = false) := by
  have hm := validModule_of_parse h
  obtain ⟨-, -, -, -, -, -, hvalid⟩ := draft_of_parse h
  obtain ⟨d, hd, hiff, hbody⟩ := entry_of_parse h
  refine ⟨Validation.function_of_validate hvalid, ⟨d, hd, hiff⟩, ?_⟩
  intro limit room
  constructor
  · -- A function with parameters fails at the start, one without code at the end, where its result
    -- is missing.
    intro hsafe
    have hparams : m.entry.params = [] := by
      by_contra hparams
      exact hsafe 0 _ _ (Machine.run_of_params hparams) rfl
    refine ⟨hparams, ?_⟩
    by_contra hneither
    obtain ⟨hmem, hresult⟩ := not_or.mp hneither
    exact hsafe 2 _ _ (Machine.run_of_body hparams (hbody hmem) (Bool.not_eq_false _ ▸ hresult)) rfl
  · rintro ⟨hparams, hentry⟩ fuel r failure hrun hfailure
    refine Machine.isOrdinary_of_run hm ?_ hparams hrun hfailure
    by_cases hmem : m.entry ∈ m.functions
    · exact hm _ hmem
    · exact Validation.runs_nil (hbody hmem) (hentry.resolve_left hmem)

/-- A module whose exported function gives back a number. -/
def constantModule : Text := "(module (func (export \"e\") (result i32) (i32.const 7)))"

theorem run_safe_iff_constantModule :
    ∃ m, Module.parse constantModule = .ok m ∧ m.entry ∈ m.functions ∧
      ∀ limit room fuel r failure, (Machine.ofModule m limit).run room fuel = some r →
        r.failure = some failure → failure.IsOrdinary := by
  have hparsed : (Module.parse constantModule).toOption.map (fun m => m.entry.params) =
      some [] := by
    decide +kernel
  have hfields : (Datum.parse constantModule).toOption.map
      (fun d => (d.items.drop 1).all fun field => !field.isExportedImport) = some true := by
    decide +kernel
  obtain ⟨m, hm, hparams⟩ := toOption_map_eq_some.mp hparsed
  obtain ⟨-, ⟨d, hd, hmem⟩, hsafe⟩ := run_safe_iff hm
  rw [hd] at hfields
  have hnone := List.all_eq_true.mp (Option.some.inj hfields)
  have hentry := hmem.mpr fun field hfield => Bool.not_eq_true' _ ▸ hnone field hfield
  exact ⟨m, hm, hentry, fun limit room => (hsafe limit room).mpr ⟨hparams, .inl hentry⟩⟩

/-- A module that exports an import, with a result. -/
def exportedImport : Text :=
  "(module (func (export \"e\") (result i32) (import \"imports\" \"abs\")))"

/-- A module whose exported function has a parameter. -/
def exportedParameter : Text := "(module (func (export \"e\") (param $x i32)))"

/-- There are modules whose exported function was not validated, and runs that fail because of it or
because of a parameter. -/
theorem exportedImport_fails :
    (∃ m r, Module.parse exportedImport = .ok m ∧ m.entry ∉ m.functions ∧
      (Machine.ofModule m 0).run none 2 = some r ∧
      r.failure = some (.trap (.finalHeight "(export \"e\")" 0 1))) ∧
    ∃ m r, Module.parse exportedParameter = .ok m ∧
      (Machine.ofModule m 0).run none 0 = some r ∧ r.failure = some .missingPart := by
  constructor
  · have hshape : (Module.parse exportedImport).toOption.map (fun m =>
        (m.functions.length, m.entry.params, m.entry.body.length, m.entry.hasResult,
          m.entry.display)) =
          some (0, [], 0, true, Text.ofString "(export \"e\")") := by
      decide +kernel
    obtain ⟨m, hm, hentry⟩ := toOption_map_eq_some.mp hshape
    simp only [Prod.mk.injEq, List.length_eq_zero_iff] at hentry
    obtain ⟨hfunctions, hparams, hbody, hresult, hdisplay⟩ := hentry
    refine ⟨m, _, hm, ?_, Machine.run_of_body hparams hbody hresult, ?_⟩
    · rw [hfunctions]
      exact List.not_mem_nil
    · rw [hdisplay]
  · have hshape : (Module.parse exportedParameter).toOption.map (fun m => m.entry.params) =
        some [Text.ofString "$x"] := by
      decide +kernel
    obtain ⟨m, hm, hparams⟩ := toOption_map_eq_some.mp hshape
    exact ⟨m, _, hm, Machine.run_of_params (by rw [hparams]; exact List.cons_ne_nil _ _), rfl⟩

end WatCompiler
