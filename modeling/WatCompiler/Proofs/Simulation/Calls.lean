import WatCompiler.Proofs.Simulation.Statements

/-!
# Calls of the program's own functions

The machine does what a call does (`callsFollow`), by induction on how deep calls may be nested. A
call starts with the function's arguments and zeros in all other locals; the first instructions of
the function give these their initial values.
-/

namespace WatCompiler

open Layout (data)

namespace Table

/-- A value is replaced in its place. -/
theorem insert_append_cons {α : Type} {t : Table α} {name : Text} (h : name ∉ t.names) (old new : α)
    (rest : Table α) :
    Table.insert (t ++ (name, old) :: rest) name new = t ++ (name, new) :: rest := by
  induction t with
  | nil =>
    show (if name = name then _ else _) = _
    rw [if_pos rfl]
    rfl
  | cons entry others ih =>
    have hkey : entry.1 ≠ name := fun he => h (List.mem_map.mpr ⟨entry, List.mem_cons_self, he⟩)
    have hothers : name ∉ names others := fun hmem => h (List.mem_cons_of_mem _ hmem)
    show (if entry.1 = name then _ else entry ::
      Table.insert (others ++ (name, old) :: rest) name new) = _
    rw [if_neg hkey, ih hothers]
    rfl

end Table

/-! ## Tables of types and tables of values -/

section Tables

variable {R : Ty → Int32 → Prop}

/-- Values that were put down in the order of their types are found where the types are. -/
theorem find?_cases_of_forall₂ {types : Table Ty} {values : Table Int32}
    (h : List.Forall₂ (fun a b => a.1 = b.1 ∧ R a.2 b.2) types values) (name : Text) :
    match types.find? name with
    | some type => ∃ v, values.find? name = some v ∧ R type v
    | none => values.find? name = none := by
  induction h with
  | nil => rfl
  | @cons a b _ _ hab _ ih =>
    obtain ⟨key, v⟩ := b
    obtain ⟨rfl, hv⟩ := hab
    by_cases hkey : a.1 = name
    · rw [Table.find?, Table.find?, if_pos hkey, if_pos hkey]
      exact ⟨v, rfl, hv⟩
    · rw [Table.find?, Table.find?, if_neg hkey, if_neg hkey]
      exact ih

/-- Variables with a value each. -/
theorem forall₂_vars {vs : List (VarDef Ty)} {value : VarDef Ty → Int32}
    (h : ∀ v ∈ vs, R v.type (value v)) :
    List.Forall₂ (fun a b => a.1 = b.1 ∧ R a.2 b.2) (vs.map fun v => (v.name, v.type))
      (vs.map fun v => (v.name, value v)) := by
  rw [List.forall₂_map_left_iff, List.forall₂_map_right_iff, List.forall₂_same]
  exact fun v hv => ⟨rfl, h v hv⟩

/-- Parameters with their arguments. -/
theorem forall₂_params {ps : List (Param Ty)} {args : List Int32}
    (h : List.Forall₂ R (ps.map Param.type) args) :
    List.Forall₂ (fun a b => a.1 = b.1 ∧ R a.2 b.2) (ps.map fun q => (q.name, q.type))
      ((ps.map Param.name).zip args) := by
  induction ps generalizing args with
  | nil => exact .nil
  | cons q rest ih =>
    cases h with
    | cons hq hrest => exact .cons ⟨rfl, hq⟩ (ih hrest)

end Tables

/-- A table of values that belongs to a table of types. -/
def Aligned (types : Table Ty) (values : Table Int32) : Prop :=
  List.Forall₂ (fun a b => a.1 = b.1 ∧ a.2.CanHold b.2) types values

theorem aligned_literals {vs : List (VarDef Ty)} (h : ∀ v ∈ vs, v.literal.type = v.type) :
    Aligned (vs.map fun v => (v.name, v.type)) (vs.map fun v => (v.name, v.literal.word)) :=
  forall₂_vars fun v hv => Ty.canHold_word (h v hv)

namespace Code

/-- The variables of a call before they have their initial values. -/
def zeros (f : FuncDef Ty) (args : List Int32) : Table Int32 :=
  (f.params.map Param.name).zip args ++ f.locals.map fun v => (v.name, 0)

theorem ownTyped_zeros {f : FuncDef Ty} {args : List Int32}
    (h : List.Forall₂ Ty.CanHold f.signature.params args) (outer : Scope) :
    OwnTyped (f.scope outer) (zeros f args) := by
  have haligned : Aligned f.localTypes (zeros f args) :=
    List.rel_append (forall₂_params h) (forall₂_vars fun v _ => Ty.canHold_zero v.type)
  constructor
  · intro name type hname
    have hfind := find?_cases_of_forall₂ haligned name
    rw [show f.localTypes.find? name = some type from hname] at hfind
    exact hfind
  · intro name hname
    have hfind := find?_cases_of_forall₂ haligned name
    rw [show f.localTypes.find? name = none from hname] at hfind
    exact hfind

/-! ## Entering a function -/

/-- Parameters are bound in their order. -/
theorem bindParams_eq_some {t : Table Int32} {params : List Text} {args : List Int32}
    (hlen : args.length = params.length) (hn : (t.names ++ params).Nodup) :
    bindParams t params args = some (t ++ params.zip args) := by
  induction params generalizing t args with
  | nil => rw [List.zip_nil_left, List.append_nil]; rfl
  | cons param rest ih =>
    obtain ⟨arg, others, rfl⟩ := List.exists_cons_of_length_eq_add_one hlen
    have hnew : param ∉ t.names := fun hmem =>
      (List.nodup_append.mp hn).2.2 _ hmem _ List.mem_cons_self rfl
    rw [bindParams, Table.insert_of_not_mem _ hnew, ih (Nat.succ.inj hlen), List.append_assoc]
    · rfl
    · rw [Table.names_append, List.append_assoc]
      exact hn

theorem foldl_insert_zero {t : Table Int32} {names : List Text} (hn : (t.names ++ names).Nodup) :
    names.foldl (fun table name => Table.insert table name 0) t =
      t ++ names.map fun name => (name, 0) := by
  induction names generalizing t with
  | nil => rw [List.map_nil, List.append_nil]; rfl
  | cons name rest ih =>
    have hnew : name ∉ t.names := fun hmem =>
      (List.nodup_append.mp hn).2.2 _ hmem _ List.mem_cons_self rfl
    rw [List.foldl_cons, Table.insert_of_not_mem _ hnew, ih, List.append_assoc]
    · rfl
    · rw [Table.names_append, List.append_assoc]
      exact hn

theorem names_zip {names : List Text} {args : List Int32} (hlen : args.length = names.length) :
    Table.names (names.zip args) = names :=
  List.map_fst_zip (Nat.le_of_eq hlen.symm)

/-- A function starts with its arguments, with zeros and with all of its body to do. -/
theorem activate?_eq_some {g : Func} {args : List Int32} (hlen : args.length = g.params.length)
    (hn : (Validation.declared g).Nodup) :
    g.activate? args = some ⟨g, g.params.zip args ++ g.locals.map fun name => (name, 0), .empty,
      [.seq g.body]⟩ := by
  have hparams : bindParams [] g.params args = some (g.params.zip args) :=
    bindParams_eq_some hlen (List.nodup_append.mp hn).1
  rw [Func.activate?, hparams, Option.map_some, foldl_insert_zero]
  rw [names_zip hlen]
  exact hn

/-- The locals of the machine after the call are the variables of the call. -/
theorem find?_zeros {f : FuncDef Ty} {g : Func} (hg : IsFunction f g) (args : List Int32)
    {name : Text} (hname : identifier name ≠ scratch) :
    Table.find? (g.params.zip args ++ g.locals.map fun name => (name, 0)) (identifier name) =
      (zeros f args).find? name := by
  have hparams : g.params.zip args = ((f.params.map Param.name).zip args).map fun entry =>
      (identifier entry.1, entry.2) := by
    have hmap : (f.params.map fun p => identifier p.name) =
        (f.params.map Param.name).map identifier :=
      List.map_map.symm
    rw [hg.params, hmap, List.zip_map_left]
    rfl
  have hlocals : (f.locals.map fun v => identifier v.name).map (fun name => (name, (0 : Int32))) =
      (f.locals.map fun v => (v.name, (0 : Int32))).map fun entry =>
        (identifier entry.1, entry.2) := by
    rw [List.map_map, List.map_map]
    rfl
  rw [zeros, Table.find?_append, Table.find?_append, hparams, find?_identifiers, hg.locals,
    List.map_cons, Table.find?, if_neg hname.symm, hlocals, find?_identifiers]

variable {fr : Frame} {w : World} {rest : List Datum} {more : List Control} {live : List Int32}
  {s : State}

/-- The first instructions of a function give its local variables their values. -/
theorem reaches_initialValues {vs : List (VarDef Ty)} {init : List Instr}
    (hinit : initialValues vs = .ok init)
    (hvs : ∀ v ∈ vs, fr.scope.local? v.name = some v.type ∧ v.literal.type = v.type)
    {done : Table Int32} (hn : (done.names ++ vs.map VarDef.name).Nodup)
    (h : Stands fr (done ++ vs.map fun v => (v.name, 0)) w
      (.seq (init.map Instr.form ++ rest) :: more) live s) :
    ∃ t, State.Reaches fr.code 0 s t ∧
      Stands fr (done ++ vs.map fun v => (v.name, v.literal.word)) w (.seq rest :: more)
        live t := by
  induction vs generalizing init done s with
  | nil =>
    cases hinit
    exact ⟨s, ⟨0, rfl⟩, h⟩
  | cons v others ih =>
    obtain ⟨word, hword, more', hmore', rfl⟩ := initialValues_cons_eq_ok.mp hinit
    cases literal_eq_ok hword
    obtain ⟨⟨hlocal, htype⟩, hothers⟩ := List.forall_mem_cons.mp hvs
    have hnew : v.name ∉ done.names := fun hmem =>
      (List.nodup_append.mp hn).2.2 _ hmem _ List.mem_cons_self rfl
    obtain ⟨t, hst, ht⟩ := Stands.const h
    obtain ⟨u, htu, hu⟩ := ht.localSet hlocal (Ty.canHold_word htype)
    rw [List.map_cons, Table.insert_append_cons hnew, List.append_cons] at hu
    rw [List.map_cons, List.append_cons] at hn
    obtain ⟨x, hreach, hx⟩ := ih hmore' hothers (by rw [Table.names_append]; exact hn) hu
    rw [List.append_assoc] at hx
    exact ⟨x, reaches_trans ⟨2, t, hst, .single htu⟩ hreach, hx⟩

/-- A local variable is found with the type of its literal. -/
theorem local?_of_mem {f : FuncDef Ty} {outer : Scope} (h : f.WellTyped outer) :
    ∀ v ∈ f.locals, (f.scope outer).local? v.name = some v.type ∧ v.literal.type = v.type := by
  intro v hv
  have hmem : (v.name, v.type) ∈ f.localTypes :=
    List.mem_append_right _ (List.mem_map.mpr ⟨v, hv, rfl⟩)
  exact ⟨Table.find?_of_mem h.distinct hmem, h.literals v hv⟩

theorem names_start {f : FuncDef Ty} {outer : Scope} (h : f.WellTyped outer) {args : List Int32}
    (hargs : List.Forall₂ Ty.CanHold f.signature.params args) :
    (Table.names ((f.params.map Param.name).zip args) ++ f.locals.map VarDef.name).Nodup := by
  have hlen : args.length = (f.params.map Param.name).length := by
    rw [← hargs.length_eq, FuncDef.signature, List.length_map, List.length_map]
  have hdistinct := h.distinct
  rw [names_localTypes] at hdistinct
  rw [names_zip hlen]
  exact hdistinct

/-! ## Calls -/

variable {p : Program Ty} {m : Module}

/-- The functions of the module for those of the program. -/
theorem exists_func {fs : List (FuncDef Ty)} {gs : List Func} (h : List.Forall₂ IsFunction fs gs)
    (hn : (fs.map FuncDef.name).Nodup) {f : FuncDef Ty} (hf : f ∈ fs) :
    (fs.find? fun other => other.name = f.name) = some f ∧
      ∃ g, IsFunction f g ∧ (gs.find? fun g => g.name = some (identifier f.name)) = some g := by
  induction h with
  | nil => cases hf
  | @cons first g fs gs hg _ ih =>
    obtain ⟨hnew, hn⟩ := List.nodup_cons.mp hn
    rcases List.mem_cons.mp hf with rfl | hf
    · refine ⟨List.find?_cons_of_pos (decide_eq_true rfl), g, hg, List.find?_cons_of_pos ?_⟩
      rw [hg.name]
      exact decide_eq_true rfl
    · have hne : first.name ≠ f.name := fun he => hnew (List.mem_map.mpr ⟨f, hf, he.symm⟩)
      obtain ⟨hfind, g', hg', hfind'⟩ := ih hn hf
      refine ⟨?_, g', hg', ?_⟩
      · rw [List.find?_cons_of_neg (by simpa using hne), hfind]
      · rw [List.find?_cons_of_neg, hfind']
        rw [hg.name]
        intro he
        exact hne (identifier_injective (Option.some.inj (of_decide_eq_true he)))

/-- The functions of a program have different names, none of them built in. -/
theorem distinct_functions (ht : p.WellTyped) :
    (p.functions.map FuncDef.name).Nodup ∧
      ∀ f ∈ p.functions, builtins.find? f.name = none := by
  have hnodup := ht.distinctFunctions
  rw [Program.scope, Table.names_append] at hnodup
  obtain ⟨-, hfunctions, hdisjoint⟩ := List.nodup_append.mp hnodup
  rw [Table.names, List.map_map] at hfunctions
  refine ⟨hfunctions, ?_⟩
  intro f hf
  rw [Table.find?_eq_none_iff]
  intro hmem
  refine hdisjoint _ hmem _ (List.mem_map.mpr ⟨(f.name, f.signature), ?_, rfl⟩) rfl
  exact List.mem_map.mpr ⟨f, hf, rfl⟩

/-- The frame of a call. -/
def callee (p : Program Ty) (m : Module) (f : FuncDef Ty) (g : Func) (caller : Activation)
    (callers : List Activation) : Frame :=
  ⟨p, m, f.scope p.scope, ownNames f, g, caller :: callers⟩

/-- What a call starts fits the program's function. -/
theorem callee_fits (hm : IsModule p m) (hp : p.Named) {f : FuncDef Ty} (hf : f ∈ p.functions)
    {g : Func} (hg : IsFunction f g) (caller : Activation) (callers : List Activation) :
    (callee p m f g caller callers).Fits where
  isModule := hm
  globals := rfl
  functions := rfl
  locals := (declares_function hm hg).own
  named := (hp.functions f hf).scope hp.scope rfl
  returns := fun _ => ⟨hg.hasResult, caller, callers, rfl⟩

/-- A call of one of the program's own functions. -/
theorem call_function (hm : IsModule p m) (ht : p.WellTyped) (hp : p.Named) {f : FuncDef Ty}
    (hf : f ∈ p.functions) (s : State) {args : List Int32} (hlen : args.length = f.params.length)
    {stack : OperandStack} (hpop : s.current.stack.popMany? [] args.length = some (args, stack)) :
    ∃ g, IsFunction f g ∧ s.call m (identifier f.name) = .running { s with
      current := ⟨g, g.params.zip args ++ g.locals.map fun name => (name, 0), .empty, [.seq g.body]⟩
      callers := { s.current with stack := stack } :: s.callers } := by
  obtain ⟨hnames, hbuiltin⟩ := distinct_functions ht
  obtain ⟨gs, hgs, hfunctions⟩ := hm.functions
  obtain ⟨-, g, hg, hfind⟩ := exists_func hgs hnames hf
  have himport : m.imports.find? (identifier f.name) = none := by
    rw [hm.imports]
    exact find?_import_eq_none (hbuiltin f hf)
  have hfunction : m.function? (identifier f.name) = some g := by
    rw [Module.function?, hfunctions, List.find?_append, hfind]
    rfl
  have hlen' : args.length = g.params.length := by rw [hg.params, List.length_map, hlen]
  have hactivate := activate?_eq_some hlen'
    (nodup_declared (ht.functions f hf) (hp.functions f hf) hg)
  refine ⟨g, hg, ?_⟩
  rw [State.call, Module.signature?, himport, hfunction]
  simp only [Option.map_some, Option.getD_some, ← hlen', hpop, Option.bind_some, hactivate]
  rfl

/-- The move into a function. What it gives back to its caller is one operand more there. -/
theorem Stands.call {own : Table Int32} (hfr : fr.Fits) (ht : fr.program.WellTyped)
    (hp : fr.program.Named) {f : FuncDef Ty} (hf : f ∈ fr.program.functions) {values : List Int32}
    (hvalues : List.Forall₂ Ty.CanHold f.signature.params values)
    (h : Stands fr own w (.seq ((Instr.call (identifier f.name)).form :: rest) :: more)
      (values.reverse ++ live) s) :
    ∃ g caller t, IsFunction f g ∧ s.step fr.code 0 = .running t ∧
      Stands (callee fr.program fr.code f g caller fr.callers) (zeros f values) w
        [.seq g.body] [] t ∧
      ∀ {w' v u}, GaveBack (callee fr.program fr.code f g caller fr.callers) w' v u →
        Stands fr own w' (.seq rest :: more) (v :: live) u := by
  obtain ⟨t, hstand, hstep⟩ := h.step
  obtain ⟨stack, hpop, hlive⟩ := OperandStack.popMany?_reverse hstand.live
  have hlen : values.length = f.params.length := by
    rw [← hvalues.length_eq, FuncDef.signature, List.length_map]
  obtain ⟨g, hg, hcall⟩ := call_function hfr.isModule ht hp hf t hlen hpop
  refine ⟨g, { t.current with stack := stack },
    { t with
      current :=
        ⟨g, g.params.zip values ++ g.locals.map fun name => (name, 0), .empty, [.seq g.body]⟩
      callers := { t.current with stack := stack } :: t.callers }, hg, ?_, ?_, ?_⟩
  · rw [hstep, State.execute,
      Instr.instr_form (show (Instr.call (identifier f.name)).IsCode from trivial)]
    exact hcall
  · exact ⟨⟨hstand.shows.globals, hstand.shows.out⟩, hstand.globals,
      congrArg (_ :: ·) hstand.callers, rfl, rfl, rfl, find?_zeros hg values,
      ownTyped_zeros hvalues fr.program.scope⟩
  · rintro w' v u ⟨caller, callers, hcallers, hshows, htyped, hcurrent, hrest⟩
    cases hcallers
    refine ⟨hshows, htyped, hrest, ?_, ?_, ?_, ?_, hstand.own⟩
    · rw [hcurrent]
      exact hstand.func
    · rw [hcurrent]
      exact hstand.todo
    · rw [hcurrent]
      exact congrArg (v :: ·) hlive
    · intro name hname
      rw [hcurrent]
      exact hstand.locals hname

/-- **The machine does what calls do.** -/
theorem callsFollow (hm : IsModule p m) (ht : p.WellTyped) (hp : p.Named) (n : Nat) {fr : Frame}
    (hfr : fr.Fits) (hprogram : fr.program = p) (hcode : fr.code = m) :
    CallsFollow fr n (p.call n) := by
  induction n generalizing fr with
  | zero =>
    intro own w rest more live s f values hf hvalues h
    exact Follows.unfinished
  | succ n ih =>
    intro own w rest more live s f values hf hvalues h
    subst hprogram hcode
    obtain ⟨g, caller, t, hg, hstep, hstart, hback⟩ := h.call hfr ht hp hf hvalues
    have hcallee := callee_fits hm hp hf hg caller fr.callers
    have htf := ht.functions f hf
    obtain ⟨init, code, next, hinit, hbody, hgbody⟩ := hg.body
    rw [hgbody, data_append, data_append, data_lines, data_lines, List.append_assoc] at hstart
    obtain ⟨u, hreach, hu⟩ := reaches_initialValues hinit (local?_of_mem htf)
      (names_start htf hvalues) hstart
    have hstmts := follows_stmts hcallee (ih hcallee rfl rfl) f.stmts htf.body hbody
      (List.forall_mem_nil _) hu
    obtain ⟨gs, hgs, -⟩ := hm.functions
    have hfind := (exists_func hgs (distinct_functions ht).1 hf).1
    rw [Program.call, hfind]
    refine Follows.of_step_succ hstep (Follows.of_reaches hreach (Follows.bind hstmts ?_))
    intro flow w' x hflow
    cases flow with
    | returned v => exact Follows.pure ⟨hback hflow.1, hflow.2⟩
    | next own' =>
      obtain ⟨y, hxy, hy⟩ := Stands.const hflow
      obtain ⟨z, hyz, hz⟩ := hy.ret hcallee rfl (List.forall_mem_nil _)
      exact Follows.of_step hxy (Follows.of_step hyz (Follows.pure ⟨hback hz, Ty.canHold_zero _⟩))

end Code

end WatCompiler
