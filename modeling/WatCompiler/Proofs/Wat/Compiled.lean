import WatCompiler.Proofs.Wat.Loading

/-!
# Compiled modules

Every source that compiles gives a module that loads as its program (`parse_compile`): the text is
read back as one datum, every field is read as what it was written for, and every function is valid.
-/

namespace WatCompiler

open Token (isIdentifier)
open Layout (data)

namespace Code

variable {p : Program Ty} {m : Module}

/-! ## What the module declares -/

/-- The names that a function declares are those of its own variables. -/
theorem names_localTypes (f : FuncDef Ty) : f.localTypes.names = ownNames f := by
  rw [FuncDef.localTypes, Table.names_append]
  simp only [Table.names, List.map_map]
  rfl

/-- The function of the module for a function of the program. -/
theorem find?_function {fs : List (FuncDef Ty)} {gs : List Func}
    (h : List.Forall₂ IsFunction fs gs) {name : Text} {signature : Signature}
    (hname : Table.find? (fs.map fun f => (f.name, f.signature)) name = some signature) :
    ∃ f g, f ∈ fs ∧ f.name = name ∧ f.signature = signature ∧ IsFunction f g ∧
      (gs.find? fun g => g.name = some (identifier name)) = some g := by
  induction h with
  | nil => cases hname
  | @cons f g fs gs hg _ ih =>
    rw [List.map_cons, Table.find?] at hname
    split at hname
    · next he =>
      cases hname
      refine ⟨f, g, List.mem_cons_self, he, rfl, hg, List.find?_cons_of_pos ?_⟩
      rw [hg.name, he]
      exact decide_eq_true rfl
    · next he =>
      obtain ⟨f', g', hf', hn', hs', hg', hfind⟩ := ih hname
      refine ⟨f', g', List.mem_cons_of_mem _ hf', hn', hs', hg', ?_⟩
      rw [List.find?_cons_of_neg, hfind]
      rw [hg.name]
      intro e
      exact he (identifier_injective (Option.some.inj (of_decide_eq_true e)))

/-- The host functions are the built-in ones. -/
theorem find?_import_of_builtin {name : Text} {signature : Signature}
    (h : builtins.find? name = some signature) :
    ∃ host : Host, host.name = name ∧
      Table.find? (Host.all.map fun host => (identifier host.name, host)) (identifier name) =
        some host ∧
      host.arity = signature.params.length + if name = "print" then 1 else 0 := by
  have hall : ∀ entry ∈ builtins, ∃ host ∈ Host.all, host.name = entry.1 ∧
      Table.find? (Host.all.map fun host => (identifier host.name, host)) (identifier entry.1) =
        some host ∧
      host.arity = entry.2.params.length + if entry.1 = "print" then 1 else 0 := by
    decide +kernel
  obtain ⟨host, -, hhost⟩ := hall _ (Table.mem_of_find? h)
  exact ⟨host, hhost⟩

/-- A function of the program is not imported. -/
theorem find?_import_eq_none {name : Text} (h : builtins.find? name = none) :
    Table.find? (Host.all.map fun host => (identifier host.name, host)) (identifier name) =
      none := by
  have hall : ∀ host ∈ Host.all, builtins.find? host.name ≠ none := by decide +kernel
  rw [Table.find?_eq_none_iff]
  intro hmem
  simp only [Table.names, List.map_map] at hmem
  obtain ⟨host, hhost, he⟩ := List.mem_map.mp hmem
  rw [← identifier_injective he] at h
  exact hall host hhost h

/-- Every function gives back one value. -/
theorem IsFunction.results {f : FuncDef Ty} {g : Func} (h : IsFunction f g) : g.results = 1 := by
  rw [Func.results, h.hasResult]
  rfl

/-- A call finds the function with its parameters, and one more for `print`. -/
theorem IsModule.signature? (hm : IsModule p m) {name : Text} {signature : Signature}
    (h : p.scope.functions.find? name = some signature) :
    m.signature? (identifier name) =
      some (signature.params.length + if name = "print" then 1 else 0, 1) := by
  have hfind := h
  rw [Program.scope, Table.find?_append] at hfind
  rw [Module.signature?, hm.imports]
  cases hbuiltin : builtins.find? name with
  | some found =>
    rw [hbuiltin] at hfind
    cases hfind
    obtain ⟨host, -, himport, harity⟩ := find?_import_of_builtin hbuiltin
    rw [himport, ← harity]
  | none =>
    rw [hbuiltin] at hfind
    obtain ⟨gs, hgs, hfunctions⟩ := hm.functions
    obtain ⟨f, g, -, -, rfl, hg, hfunction⟩ := find?_function hgs hfind
    have hprint : name ≠ "print" := by
      rintro rfl
      cases hbuiltin
    rw [find?_import_eq_none hbuiltin, Module.function?, hfunctions, List.find?_append, hfunction,
      if_neg hprint]
    simp only [Option.some_or, Option.map_some, hg.params, hg.results, FuncDef.signature,
      List.length_map, Nat.add_zero]

/-- Code finds the global variables of the program. -/
theorem IsModule.has_global (hm : IsModule p m) {name : Text} {type : Ty}
    (h : p.scope.globals.find? name = some type) : m.globals.has (identifier name) = true := by
  obtain ⟨v, hv, he⟩ := List.mem_map.mp (Table.mem_of_find? h)
  cases he
  rw [Table.has_iff_mem, hm.globals]
  simp only [Table.names, List.map_map]
  exact List.mem_map.mpr ⟨v, hv, rfl⟩

/-- The code of a function finds what its scope has. -/
theorem declares_function (hm : IsModule p m) {f : FuncDef Ty} {g : Func}
    (hg : IsFunction f g) : Declares (f.scope p.scope) (ownNames f) m g := by
  refine ⟨?_, ?_, ?_, hm.has_global, hm.signature?, fun _ => hg.results⟩
  · intro name
    rw [← names_localTypes]
    exact Table.has_iff_mem.symm
  · intro name hname
    rw [Validation.declared, hg.params, hg.locals]
    rcases List.mem_append.mp hname with h | h
    · obtain ⟨q, hq, rfl⟩ := List.mem_map.mp h
      exact List.mem_append_left _ (List.mem_map.mpr ⟨q, hq, rfl⟩)
    · obtain ⟨v, hv, rfl⟩ := List.mem_map.mp h
      exact List.mem_append_right _ (List.mem_cons_of_mem _ (List.mem_map.mpr ⟨v, hv, rfl⟩))
  · rw [Validation.declared, hg.locals]
    exact List.mem_append_right _ List.mem_cons_self

/-- The top-level code finds the global variables and functions. -/
theorem declares_entry (hm : IsModule p m) : Declares p.scope [] m m.entry := by
  refine ⟨?_, ?_, ?_, hm.has_global, hm.signature?, ?_⟩
  · intro name
    exact ⟨fun h => (nomatch h), fun h => (nomatch h)⟩
  · intro name h
    cases h
  · rw [Validation.declared, hm.entry.locals]
    exact List.mem_append_right _ List.mem_cons_self
  · intro h
    cases h

/-! ## Validity -/

/-- Storing initial values leaves the stack as it was. -/
theorem seq_initialValues {vs : List (VarDef Ty)} {g : Func} {labels : List Text}
    (hd : ∀ v ∈ vs, identifier v.name ∈ Validation.declared g) {init : List Instr}
    (h : initialValues vs = .ok init) (u : Bool) (rest : List Datum) :
    Validation.seq m g labels ⟨0, u⟩ (init.map Instr.form ++ rest) =
      Validation.seq m g labels ⟨0, u⟩ rest := by
  induction vs generalizing init with
  | nil =>
    cases h
    rfl
  | cons v others ih =>
    obtain ⟨word, -, more, hmore, rfl⟩ := initialValues_cons_eq_ok.mp h
    obtain ⟨hv, hothers⟩ := List.forall_mem_cons.mp hd
    refine (Validation.seq_const word).trans ((Validation.seq_localSet hv).trans ?_)
    exact ih hothers hmore

/-- No duplicate is found where there is none. -/
theorem firstDuplicate?_eq_none {seen names : List Text} (h : (seen ++ names).Nodup) :
    Validation.firstDuplicate? seen names = none := by
  induction names generalizing seen with
  | nil => rfl
  | cons name rest ih =>
    have hnew : ¬ seen.contains name = true := fun hmem =>
      (List.nodup_append.mp h).2.2 name (List.contains_iff_mem.mp hmem) name List.mem_cons_self rfl
    rw [Validation.firstDuplicate?, if_neg hnew]
    refine ih ?_
    exact (List.perm_middle.nodup_iff.mp h)

/-- A function passes if its names differ and its body leaves as much as it gives back. -/
theorem function_eq_ok {g : Func} (hn : (Validation.declared g).Nodup) {h : Height}
    (hseq : Validation.seq m g [] .zero g.body = .ok h) (hend : h.endsWith g.results = true) :
    Validation.function m g = .ok () := by
  have hnew : Validation.firstDuplicate? [] (Validation.declared g) = none :=
    firstDuplicate?_eq_none hn
  rw [Validation.function, hnew]
  show (Validation.seq m g [] .zero g.body >>= fun h => _) = _
  rw [hseq]
  exact if_pos hend

/-- The scratch local is none of the function's own variables. -/
theorem nodup_declared {f : FuncDef Ty} {scope : Scope} (ht : f.WellTyped scope) (hf : f.Named)
    {g : Func} (hg : IsFunction f g) : (Validation.declared g).Nodup := by
  have hown : (f.params.map fun q => identifier q.name) ++ (f.locals.map fun v => identifier v.name)
      = (ownNames f).map identifier := by
    rw [ownNames, List.map_append, List.map_map, List.map_map]
    rfl
  have hnodup : (ownNames f).Nodup := by
    rw [← names_localTypes]
    exact ht.distinct
  rw [Validation.declared, hg.params, hg.locals, List.perm_middle.nodup_iff, hown, List.nodup_cons]
  refine ⟨?_, hnodup.map fun _ _ => identifier_injective⟩
  intro hmem
  obtain ⟨name, hname, he⟩ := List.mem_map.mp hmem
  have hidentifier : isIdentifier name = true := by
    rcases List.mem_append.mp hname with h | h
    · obtain ⟨q, hq, rfl⟩ := List.mem_map.mp h
      exact hf.params q hq
    · obtain ⟨v, hv, rfl⟩ := List.mem_map.mp h
      exact hf.locals v hv
  have hscratch : name = Text.ofString "$scratch" := (List.cons.inj he).2
  rw [hscratch] at hidentifier
  cases hidentifier

/-- The code of a well-typed function passes. -/
theorem function_valid (hm : IsModule p m) {f : FuncDef Ty} (ht : f.WellTyped p.scope)
    (hf : f.Named) {g : Func} (hg : IsFunction f g) : Validation.function m g = .ok () := by
  have hd := declares_function hm hg
  have hlocals : ∀ v ∈ f.locals, identifier v.name ∈ Validation.declared g := fun v hv =>
    hd.locals (List.mem_append_right _ (List.mem_map.mpr ⟨v, hv, rfl⟩))
  obtain ⟨init, code, next, hinit, hcode, hbody⟩ := hg.body
  obtain ⟨u, hu⟩ := seq_stmts hd f.stmts ht.body hcode [] false
    ([Instr.const 0, .ret].map Instr.form)
  have hseq : Validation.seq m g [] .zero g.body = .ok ⟨0, true⟩ := by
    show Validation.seq m g [] ⟨0, false⟩ g.body = _
    rw [hbody, data_append, data_append, data_lines, data_lines, List.append_assoc,
      seq_initialValues hlocals hinit, hu]
    refine (Validation.seq_const 0).trans ((Validation.seq_ret hg.results).trans ?_)
    exact Validation.seq_nil _
  exact function_eq_ok (nodup_declared ht hf hg) hseq rfl

/-- So does the top-level code. -/
theorem entry_valid (hm : IsModule p m) (ht : p.WellTyped) :
    Validation.function m m.entry = .ok () := by
  obtain ⟨code, next, hcode, hbody⟩ := hm.entry.body
  obtain ⟨u, hu⟩ := seq_stmts (declares_entry hm) p.stmts ht.body hcode [] false []
  rw [List.append_nil, Validation.seq_nil, ← hbody] at hu
  have hnodup : (Validation.declared m.entry).Nodup := by
    rw [Validation.declared, hm.entry.params, hm.entry.locals]
    exact List.nodup_singleton _
  have hend : Height.endsWith ⟨0, u⟩ m.entry.results = true := by
    simp [Height.endsWith, Func.results, hm.entry.hasResult]
  exact function_eq_ok hnodup hu hend

/-- A module passes if all of its functions do. -/
theorem validate_eq_ok {fs : List Func} (h : ∀ g ∈ fs, Validation.function m g = .ok ()) :
    m.validate fs = .ok () := by
  induction fs with
  | nil => rfl
  | cons g rest ih =>
    obtain ⟨hg, hrest⟩ := List.forall_mem_cons.mp h
    rw [Module.validate, hg]
    exact ih hrest

theorem exists_of_forall₂ {α β : Type} {R : α → β → Prop} {as : List α} {bs : List β}
    (h : List.Forall₂ R as bs) {b : β} (hb : b ∈ bs) : ∃ a ∈ as, R a b := by
  induction h with
  | nil => cases hb
  | @cons a b' as bs hab _ ih =>
    rcases List.mem_cons.mp hb with rfl | hb
    · exact ⟨a, List.mem_cons_self, hab⟩
    · obtain ⟨a', ha', hr⟩ := ih hb
      exact ⟨a', List.mem_cons_of_mem _ ha', hr⟩

/-- All functions of the module of a well-typed program pass. -/
theorem IsModule.valid (hm : IsModule p m) (ht : p.WellTyped) (hp : p.Named) :
    ∀ g ∈ m.functions, Validation.function m g = .ok () := by
  obtain ⟨gs, hgs, hfunctions⟩ := hm.functions
  rw [hfunctions]
  refine List.forall_mem_append.mpr ⟨?_, List.forall_mem_singleton.mpr (entry_valid hm ht)⟩
  intro g hg
  obtain ⟨f, hf, hfg⟩ := exists_of_forall₂ hgs hg
  exact function_valid hm (ht.functions f hf) (hp.functions f hf) hfg

/-! ## Written form -/

theorem form_wellFormed_of_items {items : List Datum} (h : ∀ d ∈ items, d.WellFormed) :
    (Datum.form items).WellFormed :=
  form_wellFormed (List.forall_mem_nil _) h

theorem symbol_wellFormed {t : Text} (h : Datum.isSymbol t = true) : (Datum.symbol t).WellFormed :=
  h

/-- The declaration of a parameter or a local variable can be read. -/
theorem declaration_wellFormed {kind : String} {name : Text}
    (hkind : Datum.isSymbol kind = true) (hname : Datum.isSymbol name = true) :
    (declaration kind name).WellFormed := by
  refine form_wellFormed_of_items ?_
  simp only [List.forall_mem_cons, List.not_mem_nil, false_implies, implies_true, and_true]
  exact ⟨hkind, hname, symbol_wellFormed (by decide)⟩

theorem result_wellFormed : result.WellFormed := by
  refine form_wellFormed_of_items ?_
  simp only [List.forall_mem_cons, List.not_mem_nil, false_implies, implies_true, and_true]
  exact ⟨symbol_wellFormed (by decide), symbol_wellFormed (by decide)⟩

theorem importField_wellFormed (host : Host) : (importField host).datum.WellFormed := by
  have hname : Datum.isSymbol (identifier host.name) = true := by cases host <;> decide
  have himport : (Datum.form [.symbol "import", .string "imports", .string host.name]).WellFormed :=
    form_wellFormed_of_items (by simp [Datum.WellFormed]; decide)
  have hparam : (Datum.form [.symbol "param", .symbol "i32"]).WellFormed :=
    form_wellFormed_of_items (by simp [Datum.WellFormed]; decide)
  refine form_wellFormed_of_items (List.forall_mem_append.mpr ⟨List.forall_mem_append.mpr
    ⟨?_, ?_⟩, List.forall_mem_singleton.mpr result_wellFormed⟩)
  · simp only [List.forall_mem_cons, List.not_mem_nil, false_implies, implies_true, and_true]
    exact ⟨symbol_wellFormed (by decide), hname, himport⟩
  · intro d hd
    rw [List.eq_of_mem_replicate hd]
    exact hparam

/-- Global variables have names that can be read. -/
theorem globalFields_wellFormed {vs : List (VarDef Ty)} (hv : ∀ v ∈ vs, isIdentifier v.name = true)
    {layouts : List Layout} (h : globalFields vs = .ok layouts) :
    ∀ d ∈ data layouts, d.WellFormed := by
  induction vs generalizing layouts with
  | nil =>
    cases h
    exact List.forall_mem_nil _
  | cons v rest ih =>
    obtain ⟨first, hfirst, others, hothers, rfl⟩ := globalFields_cons_eq_ok.mp h
    obtain ⟨word, -, rfl⟩ := globalField_eq_ok.mp hfirst
    obtain ⟨hname, hrest⟩ := List.forall_mem_cons.mp hv
    have htype : (Datum.form [.symbol "mut", .symbol "i32"]).WellFormed :=
      form_wellFormed_of_items (by simp [Datum.WellFormed]; decide)
    refine List.forall_mem_cons.mpr ⟨form_wellFormed_of_items ?_, ih hrest hothers⟩
    simp only [List.forall_mem_cons, List.not_mem_nil, false_implies, implies_true, and_true]
    exact ⟨symbol_wellFormed
      (by decide), Instr.isSymbol_identifier hname, htype, Instr.form_wellFormed trivial⟩

theorem localFields_wellFormed {names : List Text} (h : ∀ name ∈ names, isIdentifier name = true) :
    ∀ d ∈ data (localFields names), d.WellFormed := by
  rw [Module.Draft.data_localFields, List.forall_mem_map, List.forall_mem_cons,
    List.forall_mem_map]
  refine ⟨declaration_wellFormed (by decide) isSymbol_scratch, ?_⟩
  intro name hname
  exact declaration_wellFormed (by decide) (Instr.isSymbol_identifier (h name hname))

/-- The definition of a function can be read. -/
theorem functionField_wellFormed {f : FuncDef Ty} {scope : Scope} (ht : f.WellTyped scope)
    (hs : (f.scope scope).Named) (hf : f.Named) {layout : Layout}
    (h : functionField f = .ok layout) : layout.datum.WellFormed := by
  obtain ⟨init, hinit, code, next, hcode, rfl⟩ := functionField_eq_ok.mp h
  have hwritten := Module.Draft.functionBody_written ht hs hf hinit hcode
  simp only [Layout.datum]
  rw [List.append_assoc (localFields _), List.append_assoc (localFields _), data_append]
  refine form_wellFormed_of_items (List.forall_mem_append.mpr ⟨List.forall_mem_append.mpr
    ⟨List.forall_mem_append.mpr ⟨?_, ?_⟩, List.forall_mem_singleton.mpr result_wellFormed⟩,
    List.forall_mem_append.mpr ⟨?_, fun d hd => (hwritten d hd).wellFormed⟩⟩)
  · simp only [List.forall_mem_cons, List.not_mem_nil, false_implies, implies_true, and_true]
    exact ⟨symbol_wellFormed (by decide), Instr.isSymbol_identifier hf.name⟩
  · rw [List.forall_mem_map, List.forall_mem_map]
    intro q hq
    exact declaration_wellFormed (by decide) (Instr.isSymbol_identifier (hf.params q hq))
  · refine localFields_wellFormed (List.forall_mem_map.mpr ?_)
    exact hf.locals

theorem functionFields_wellFormed {scope : Scope} {fs : List (FuncDef Ty)}
    (ht : ∀ f ∈ fs, f.WellTyped scope ∧ (f.scope scope).Named ∧ f.Named) {layouts : List Layout}
    (h : functionFields fs = .ok layouts) : ∀ d ∈ data layouts, d.WellFormed := by
  induction fs generalizing layouts with
  | nil =>
    cases h
    exact List.forall_mem_nil _
  | cons f rest ih =>
    obtain ⟨first, hfirst, others, hothers, rfl⟩ := functionFields_cons_eq_ok.mp h
    obtain ⟨⟨htf, hsf, hf⟩, htrest⟩ := List.forall_mem_cons.mp ht
    exact List.forall_mem_cons.mpr
      ⟨functionField_wellFormed htf hsf hf hfirst, ih htrest hothers⟩

/-- And so can the top-level code. -/
theorem entryField_wellFormed {body : List (Stmt Ty)} {scope : Scope} (ht : StmtsTyped scope body)
    (hs : scope.Named) {layout : Layout} (h : entryField body = .ok layout) :
    layout.datum.WellFormed := by
  obtain ⟨code, next, hcode, rfl⟩ := entryField_eq_ok.mp h
  have hexport : (Datum.form [.symbol "export", .string "exported_func"]).WellFormed :=
    form_wellFormed_of_items (by simp [Datum.WellFormed]; decide)
  simp only [Layout.datum]
  rw [data_append]
  refine form_wellFormed_of_items (List.forall_mem_append.mpr ⟨?_, List.forall_mem_append.mpr
    ⟨localFields_wellFormed (List.forall_mem_nil _), ?_⟩⟩)
  · simp only [List.forall_mem_cons, List.not_mem_nil, false_implies, implies_true, and_true]
    exact ⟨symbol_wellFormed (by decide), hexport⟩
  · exact fun d hd => (stmts_written hs body ht hcode d hd).wellFormed

/-! ## The module of a program -/

/-- What is known of each function of a program when its code is read. -/
theorem functions_named (ht : p.WellTyped) (hp : p.Named) :
    ∀ f ∈ p.functions, f.WellTyped p.scope ∧ (f.scope p.scope).Named ∧ f.Named := by
  intro f hf
  have hnamed := hp.functions f hf
  exact ⟨ht.functions f hf, hnamed.scope hp.scope rfl, hnamed⟩

/-- The whole module can be read. -/
theorem toLayout_wellFormed (ht : p.WellTyped) (hp : p.Named) {layout : Layout}
    (h : p.toLayout = .ok layout) : layout.datum.WellFormed := by
  obtain ⟨globals, hglobals, functions, hfunctions, entry, hentry, rfl⟩ := toLayout_eq_ok.mp h
  simp only [Layout.datum]
  rw [data_append, data_append, data_append, data_eq_map (Host.all.map importField), List.map_map]
  refine form_wellFormed_of_items (List.forall_mem_append.mpr
    ⟨List.forall_mem_singleton.mpr (symbol_wellFormed (by decide)), ?_⟩)
  simp only [List.forall_mem_append]
  refine ⟨⟨⟨?_, ?_⟩, ?_⟩, ?_⟩
  · exact List.forall_mem_map.mpr fun host _ => importField_wellFormed host
  · exact globalFields_wellFormed hp.globals hglobals
  · exact functionFields_wellFormed (functions_named ht hp) hfunctions
  · exact List.forall_mem_singleton.mpr (entryField_wellFormed ht.body hp.scope hentry)

/-- The fields of the module, read one after the other. -/
theorem withFields_toLayout (ht : p.WellTyped) (hp : p.Named) {globals functions : List Layout}
    {entry : Layout} (hglobals : globalFields p.globals = .ok globals)
    (hfunctions : functionFields p.functions = .ok functions)
    (hentry : entryField p.stmts = .ok entry) :
    ∃ gs g, List.Forall₂ IsFunction p.functions gs ∧ IsEntry p.stmts g ∧
      g.exported = some "exported_func" ∧
      Module.Draft.empty.withFields
          (data (Host.all.map importField ++ globals ++ functions ++ [entry])) =
        .ok ⟨p.globals.map fun v => (identifier v.name, v.literal.word),
          Host.all.map fun host => (identifier host.name, host), gs ++ [g], some g⟩ := by
  have hglobalNames : (p.globals.map fun v => identifier v.name).Nodup := by
    have hnodup := ht.distinctGlobals
    rw [Program.scope, Table.names, List.map_map] at hnodup
    have hmapped := hnodup.map fun _ _ => identifier_injective
    rwa [List.map_map] at hmapped
  have hfunctionNames : (p.functions.map FuncDef.name).Nodup := by
    have hnodup := ht.distinctFunctions
    rw [Program.scope, Table.names_append] at hnodup
    have hright := (List.nodup_append.mp hnodup).2.1
    rwa [Table.names, List.map_map] at hright
  let hosts : Table Host := Host.all.map fun host => (identifier host.name, host)
  let words : Table Int32 := p.globals.map fun v => (identifier v.name, v.literal.word)
  have himported : Module.Draft.empty.withFields (data (Host.all.map importField)) =
      .ok ⟨[], hosts, [], none⟩ := by
    rw [data_eq_map, List.map_map]
    exact Module.Draft.withFields_imports .empty Host.all
  have hread : Module.Draft.withFields ⟨[], hosts, [], none⟩ (data globals) =
      .ok ⟨words, hosts, [], none⟩ :=
    Module.Draft.withFields_globals hglobals _ hglobalNames
  have hlacks : ∀ f ∈ p.functions,
      Module.Draft.Lacks ⟨words, hosts, [], none⟩ (identifier f.name) :=
    fun _ _ => List.forall_mem_nil _
  obtain ⟨gs, hgs, hfields⟩ := Module.Draft.withFields_functions (functions_named ht hp) hfunctions
    hlacks hfunctionNames
  obtain ⟨g, hg, hexported, hfield⟩ := Module.Draft.withField_entry ht.body hp.scope hentry
    (show Module.Draft.entry ⟨words, hosts, gs, none⟩ = none from rfl)
  refine ⟨gs, g, hgs, hg, hexported, ?_⟩
  rw [data_append, data_append, data_append, Module.Draft.withFields_append,
    Module.Draft.withFields_append, Module.Draft.withFields_append, himported]
  show (Module.Draft.withFields ⟨[], hosts, [], none⟩ (data globals) >>= fun draft =>
    draft.withFields (data functions)) >>= _ = _
  rw [hread]
  show Module.Draft.withFields ⟨words, hosts, [], none⟩ (data functions) >>= _ = _
  rw [hfields]
  show Module.Draft.withFields ⟨words, hosts, gs, none⟩ [entry.datum] = _
  rw [Module.Draft.withFields, hfield]
  rfl

/-- The text of a program is parsed as its module. -/
theorem isModule_of_toWat (ht : p.WellTyped) (hp : p.Named) {wat : Text} (h : p.toWat = .ok wat) :
    ∃ m, Module.parse wat = .ok m ∧ IsModule p m ∧ m.entry.exported = some "exported_func" := by
  obtain ⟨layout, hlayout, h⟩ := bind_eq_ok.mp h
  cases h
  have hread := Layout.parse_text (toLayout_wellFormed ht hp hlayout)
  obtain ⟨globals, hglobals, functions, hfunctions, entry, hentry, rfl⟩ := toLayout_eq_ok.mp hlayout
  obtain ⟨gs, g, hgs, hg, hexported, hfields⟩ :=
    withFields_toLayout ht hp hglobals hfunctions hentry
  let m : Module := ⟨p.globals.map fun v => (identifier v.name, v.literal.word),
    Host.all.map fun host => (identifier host.name, host), gs ++ [g], g⟩
  have hm : IsModule p m := ⟨rfl, rfl, ⟨gs, hgs, rfl⟩, hg⟩
  refine ⟨m, ?_, hm, hexported⟩
  rw [Module.parse, hread]
  show (Module.Draft.empty.withFields
    (data (Host.all.map importField ++ globals ++ functions ++ [entry])) >>= _) = _
  rw [hfields]
  show (m.validate m.functions >>= fun _ => pure m) = _
  rw [validate_eq_ok (hm.valid ht hp)]
  rfl

end Code

/-! ## Sources that compile -/

/-- Checking keeps the names of a program. -/
theorem Program.Named.of_sameNames {α : Type} {p : Program α} {q : Program Ty} (hp : p.Named)
    (hglobals : q.globals.map VarDef.name = p.globals.map VarDef.name)
    (hfunctions : List.Forall₂ Typing.SameNames p.functions q.functions) : q.Named := by
  have hnames : ∀ {β γ : Type} {as : List β} {bs : List γ} {f : β → Text} {g : γ → Text},
      bs.map g = as.map f → (∀ a ∈ as, isIdentifier (f a) = true) →
      ∀ b ∈ bs, isIdentifier (g b) = true := by
    intro β γ as bs f g he has b hb
    have hmem : g b ∈ as.map f := he ▸ List.mem_map_of_mem hb
    obtain ⟨a, ha, hab⟩ := List.mem_map.mp hmem
    exact hab ▸ has a ha
  refine ⟨hnames hglobals hp.globals, ?_⟩
  intro f' hf'
  obtain ⟨f, hf, hsame⟩ := Code.exists_of_forall₂ hfunctions hf'
  have hnamed := hp.functions f hf
  exact ⟨hsame.name ▸ hnamed.name, hnames hsame.params hnamed.params,
    hnames hsame.locals hnamed.locals⟩

/-- A source that passes the check has a well-typed program with names. -/
theorem wellTyped_of_checkSource {source : Text} {p : Program Ty} (h : checkSource source = .ok p) :
    p.WellTyped ∧ p.Named := by
  obtain ⟨parsed, hparsed, h⟩ := bind_eq_ok.mp h
  obtain ⟨hwell, hglobals, hfunctions⟩ := wellTyped_of_check (mapError_eq_ok.mp h)
  exact ⟨hwell, (named_of_parseProgram hparsed).of_sameNames hglobals hfunctions⟩

/-- The module of a source that compiles is its checked program. -/
theorem isModule_of_compile {source wat : Text} (h : compile source = .ok wat) :
    ∃ p m, checkSource source = .ok p ∧ p.WellTyped ∧ p.Named ∧ Module.parse wat = .ok m ∧
      Code.IsModule p m := by
  obtain ⟨p, hp, h⟩ := bind_eq_ok.mp h
  obtain ⟨hwell, hnamed⟩ := wellTyped_of_checkSource hp
  obtain ⟨m, hm, his, -⟩ := Code.isModule_of_toWat hwell hnamed (mapError_eq_ok.mp h)
  exact ⟨p, m, hp, hwell, hnamed, hm, his⟩

/-- What a function of a module declares: its name, its parameters, its other locals, and whether
it has a result. -/
def Func.header (g : Func) : Option Text × List Text × List Text × Bool :=
  (g.name, g.params, g.locals, g.hasResult)

/-- The header of the code of a function of the program. -/
def FuncDef.header (f : FuncDef Ty) : Option Text × List Text × List Text × Bool :=
  (some (Code.identifier f.name), f.params.map (fun p => Code.identifier p.name),
    Code.scratch :: f.locals.map (fun v => Code.identifier v.name), true)

/-- Functions come in order, with their names, parameters and variables. -/
theorem headers_eq {fs : List (FuncDef Ty)} {gs : List Func}
    (h : List.Forall₂ Code.IsFunction fs gs) : gs.map Func.header = fs.map FuncDef.header := by
  induction h with
  | nil => rfl
  | cons hg _ ih =>
    rw [List.map_cons, List.map_cons, ih, Func.header, hg.name, hg.params, hg.locals, hg.hasResult]
    rfl

/-- A module that was parsed was read from one datum. -/
theorem ofDatum_of_parse {wat : Text} {m : Module} (h : Module.parse wat = .ok m) :
    ∃ d, Datum.parse wat = .ok d ∧ Module.ofDatum d = .ok m := by
  rw [Module.parse] at h
  split at h
  · cases h
  · next d hd => exact ⟨d, hd, h⟩

/-- Every source that compiles gives a text that is one datum and loads as a module whose functions
are all valid. The globals are those of the program with their initial values, and there is one
function with one result for each of its functions, before the entry. -/
theorem parse_compile {source wat : Text} (h : compile source = .ok wat) :
    ∃ p d m, checkSource source = .ok p ∧ Datum.parse wat = .ok d ∧ Module.ofDatum d = .ok m ∧
      Module.parse wat = .ok m ∧
      (∀ g ∈ m.functions, Validation.function m g = .ok ()) ∧
      m.globals = p.globals.map (fun v => (Code.identifier v.name, v.literal.word)) ∧
      (∃ gs, m.functions = gs ++ [m.entry] ∧ gs.map Func.header = p.functions.map FuncDef.header) ∧
      m.entry.header = (none, [], [Code.scratch], false) := by
  obtain ⟨p, m, hp, hwell, hnamed, hparse, hm⟩ := isModule_of_compile h
  obtain ⟨d, hd, hmodule⟩ := ofDatum_of_parse hparse
  obtain ⟨gs, hgs, hfunctions⟩ := hm.functions
  refine ⟨p, d, m, hp, hd, hmodule, hparse, hm.valid hwell hnamed, hm.globals,
    ⟨gs, hfunctions, headers_eq hgs⟩, ?_⟩
  rw [Func.header, hm.entry.name, hm.entry.params, hm.entry.locals, hm.entry.hasResult]

/-- A program with a global variable and a function that has a parameter and a local variable. -/
def shiftSource : Text :=
  "x:int = 3\ndef f(a:int) -> int:\n  b:int = 1\n  return a + b\nprint(f(x))\n"

/-- A function, a global variable and a call. -/
theorem parse_compile_shiftSource :
    ∃ wat m, compile shiftSource = .ok wat ∧ Module.parse wat = .ok m ∧
      m.globals = [(Text.ofString "$x", 3)] ∧ m.functions.length = 2 ∧
      m.entry.header = (none, [], [Code.scratch], false) := by
  have hcompiled : (compile shiftSource).toOption.map (fun _ => ()) = some () := by decide +kernel
  obtain ⟨wat, hwat, -⟩ := toOption_map_eq_some.mp hcompiled
  obtain ⟨p, d, m, hp, -, -, hm, -, hglobals, ⟨gs, hfunctions, hheaders⟩, hentry⟩ :=
    parse_compile hwat
  have hshape : (checkSource shiftSource).toOption.map (fun p =>
      (p.globals.map fun v => (Code.identifier v.name, v.literal.word), p.functions.length)) =
      some ([(Text.ofString "$x", 3)], 1) := by
    decide +kernel
  rw [hp] at hshape
  obtain ⟨hwords, hcount⟩ := Prod.mk.inj (Option.some.inj hshape)
  have hlength := congrArg List.length hheaders
  rw [List.length_map, List.length_map, hcount] at hlength
  refine ⟨wat, m, hwat, hm, hglobals.trans hwords, ?_, hentry⟩
  rw [hfunctions, List.length_append, hlength]
  rfl

end WatCompiler
