import WatCompiler.Proofs.Validation.Entry

/-!
# What the fields of a module declare

A field is a global or a function, and what it declares can be read off the field alone
(`Datum.Declares`). Reading fields one after another only adds to the draft of the module what they
declare, and it goes on as long as there is one export at most and no two functions with code have
the same name (`withFields_eq_ok_iff`). This description does not mention the order of the fields.
-/

namespace WatCompiler

/-- The heads of the items that can stand in front of the body of a function. -/
def declarationHeads : List Text := ["import", "export", "param", "result", "local"]

/-- What the items after the name of a function say about it. If `f` is what is known of the
function in front of them, it is `g` in the end: an import of `host`, or a function with code. -/
inductive Func.DeclaredAs : Func → List Datum → Func → Option Host → Prop
  | done (f : Func) : DeclaredAs f [] f none
  | body (f : Func) {item : Datum} (rest : List Datum) (head : item.head ∉ declarationHeads) :
      DeclaredAs f (item :: rest) { f with body := item :: rest } none
  | imported (f : Func) {item word space field : Datum} {host : Host} (rest : List Datum)
      (head : item.head = "import") (items : item.items = [word, space, field])
      (known : Host.ofName? field.text = some host) : DeclaredAs f (item :: rest) f (some host)
  | exported {f g : Func} {item word name : Datum} {rest : List Datum} {host : Option Host}
      (head : item.head = "export") (items : item.items = [word, name]) (first : f.exported = none)
      (others : DeclaredAs { f with exported := some name.text } rest g host) :
      DeclaredAs f (item :: rest) g host
  | param {f g : Func} {item word name type : Datum} {rest : List Datum} {host : Option Host}
      (head : item.head = "param") (items : item.items = [word, name, type])
      (others : DeclaredAs { f with params := f.params ++ [name.text] } rest g host) :
      DeclaredAs f (item :: rest) g host
  | result {f g : Func} {item : Datum} {rest : List Datum} {host : Option Host}
      (head : item.head = "result") (others : DeclaredAs { f with hasResult := true } rest g host) :
      DeclaredAs f (item :: rest) g host
  | locals {f g : Func} {item word name type : Datum} {rest : List Datum} {host : Option Host}
      (head : item.head = "local") (items : item.items = [word, name, type])
      (others : DeclaredAs { f with locals := f.locals ++ [name.text] } rest g host) :
      DeclaredAs f (item :: rest) g host

theorem Func.DeclaredAs.name_eq {f g : Func} {items : List Datum} {host : Option Host}
    (h : f.DeclaredAs items g host) : g.name = f.name := by
  induction h with
  | done | body | imported => rfl
  | exported _ _ _ _ ih | param _ _ _ ih | result _ _ ih | locals _ _ _ ih => exact ih

theorem Func.DeclaredAs.exported_isSome {f g : Func} {items : List Datum} {host : Option Host}
    (h : f.DeclaredAs items g host) (hf : f.exported.isSome = true) : g.exported.isSome = true := by
  induction h with
  | done | body | imported => exact hf
  | exported _ _ _ _ ih => exact ih rfl
  | param _ _ _ ih | result _ _ ih | locals _ _ _ ih => exact ih hf

namespace Module.Draft

variable {draft next : Draft}

/-- Ends a function: it is an import, or one with code, whose name must be new. -/
def complete (draft : Draft) (f : Func) : Option Host → Except LoadFault Draft
  | none => draft.withFunction f
  | some host =>
    .ok { draft.withEntry f with imports := draft.imports.insert (f.name.getD []) host }

/-- Reading the items of a function collects a declaration and then enters it. -/
theorem declaredAs_of_withFunctionItems {items : List Datum} :
    ∀ {f : Func}, draft.withFunctionItems f items = .ok next →
      ∃ g host, f.DeclaredAs items g host ∧
        (f.exported = none → g.exported.isSome = true → draft.entry = none) ∧
        draft.complete g host = .ok next := by
  have hself : ∀ f : Func, f.exported = none → f.exported.isSome = true → draft.entry = none := by
    intro f hnone hsome
    rw [hnone] at hsome
    cases hsome
  induction items with
  | nil =>
    intro f h
    exact ⟨f, none, .done f, hself f, h⟩
  | cons item rest ih =>
    intro f h
    simp only [withFunctionItems] at h
    split at h
    · next head =>
      split at h
      · next items =>
        split at h
        · cases h
        · next known => exact ⟨f, some _, .imported f rest head items known, hself f, h⟩
      · cases h
    next himport =>
    split at h
    · next head =>
      split at h
      · next items =>
        split at h
        · cases h
        next hfirst =>
        rw [Bool.or_eq_true, not_or, Option.not_isSome_iff_eq_none,
          Option.not_isSome_iff_eq_none] at hfirst
        obtain ⟨g, host, hdeclared, -, hnext⟩ := ih h
        exact ⟨g, host, .exported head items hfirst.2 hdeclared, fun _ _ => hfirst.1, hnext⟩
      · cases h
    next hexport =>
    split at h
    · next head =>
      split at h
      · next items =>
        obtain ⟨g, host, hdeclared, hentry, hnext⟩ := ih h
        exact ⟨g, host, .param head items hdeclared, hentry, hnext⟩
      · cases h
    next hparam =>
    split at h
    · next head =>
      obtain ⟨g, host, hdeclared, hentry, hnext⟩ := ih h
      exact ⟨g, host, .result head hdeclared, hentry, hnext⟩
    next hresult =>
    split at h
    · next head =>
      split at h
      · next items =>
        obtain ⟨g, host, hdeclared, hentry, hnext⟩ := ih h
        exact ⟨g, host, .locals head items hdeclared, hentry, hnext⟩
      · cases h
    · next hlocal =>
      have head : item.head ∉ declarationHeads := by
        simp only [declarationHeads, List.mem_cons, himport, hexport, hparam, hresult, hlocal,
          List.not_mem_nil, or_self, not_false_eq_true]
      exact ⟨_, none, .body f rest head, hself f, h⟩

/-- What can be declared is entered like this. -/
theorem withFunctionItems_of_declaredAs {f g : Func} {items : List Datum} {host : Option Host}
    (h : f.DeclaredAs items g host)
    (hentry : f.exported = none → g.exported.isSome = true → draft.entry = none) :
    draft.withFunctionItems f items = draft.complete g host := by
  induction h with
  | done => rfl
  | body f rest head =>
    simp only [declarationHeads, List.mem_cons, List.not_mem_nil, not_or] at head
    obtain ⟨himport, hexport, hparam, hresult, hlocal, -⟩ := head
    rw [withFunctionItems, if_neg himport, if_neg hexport, if_neg hparam, if_neg hresult,
      if_neg hlocal]
    rfl
  | imported f rest head items known =>
    rw [withFunctionItems, if_pos head, items]
    simp only [known]
    rfl
  | exported head items first others ih =>
    have hnone : draft.entry = none := hentry first (others.exported_isSome rfl)
    rw [withFunctionItems, if_neg (by rw [head]; decide), if_pos head, items]
    simp only [hnone, first, Option.isSome_none, Bool.or_self, Bool.false_eq_true, if_false]
    exact ih fun h => absurd h (Option.some_ne_none _)
  | param head items others ih =>
    rw [withFunctionItems,
      if_neg (by rw [head]; decide), if_neg (by rw [head]; decide), if_pos head,
      items]
    exact ih hentry
  | result head others ih =>
    rw [withFunctionItems, if_neg (by rw [head]; decide), if_neg (by rw [head]; decide),
      if_neg (by rw [head]; decide), if_pos head]
    exact ih hentry
  | locals head items others ih =>
    rw [withFunctionItems, if_neg (by rw [head]; decide), if_neg (by rw [head]; decide),
      if_neg (by rw [head]; decide), if_neg (by rw [head]; decide), if_pos head, items]
    exact ih hentry

end Module.Draft

/-! ## Declarations -/

/-- The name that a function starts with, if it has one. -/
def functionName? : List Datum → Option Text
  | .symbol name :: _ => some name
  | _ => none

/-- What one field declares. -/
inductive Declaration
  | global (name : Text) (value : Int32)
  /-- A function with code, or an import of a function of the host. -/
  | function (f : Func) (host : Option Host)

namespace Declaration

/-- The global and its initial value. -/
def global? : Declaration → Option (Text × Int32)
  | global name value => some (name, value)
  | function _ _ => none

/-- The name of an import and what it stands for. -/
def import? : Declaration → Option (Text × Host)
  | function f (some host) => some (f.name.getD [], host)
  | _ => none

/-- The function with code. -/
def function? : Declaration → Option Func
  | function f none => some f
  | _ => none

/-- The function that runs start with. -/
def exported? : Declaration → Option Func
  | function f _ => if f.exported.isSome then some f else none
  | _ => none

/-- Two fields of one module can declare these: they do not both export a function, and they are not
functions of the same name. -/
structure Compatible (a b : Declaration) : Prop where
  entry : a.exported? = none ∨ b.exported? = none
  names : ∀ f, a.function? = some f → ∀ g, b.function? = some g → f.name = g.name → f.name = none

theorem Compatible.symm {a b : Declaration} (h : a.Compatible b) : b.Compatible a where
  entry := h.entry.symm
  names f hf g hg heq := heq.trans (h.names g hg f hf heq.symm)

end Declaration

/-- A field declares something. -/
inductive Datum.Declares (field : Datum) : Declaration → Prop
  | global {word name type value : Datum} {n : Int32} (head : field.head = "global")
      (items : field.items = [word, name, type, value]) (constant : value.constant = .ok n) :
      Declares field (.global name.text n)
  | function {f : Func} {host : Option Host} (head : field.head = "func")
      (reads : Func.DeclaredAs { Func.empty with name := functionName? (field.items.drop 1) }
        (afterName (field.items.drop 1)) f host) : Declares field (.function f host)

namespace Module.Draft

variable {draft next : Draft}

/-- The draft with what one more field declares. -/
def add (draft : Draft) : Declaration → Draft
  | .global name value => { draft with globals := draft.globals.insert name value }
  | .function f none => { draft.withEntry f with functions := draft.functions ++ [f] }
  | .function f (some host) =>
    { draft.withEntry f with imports := draft.imports.insert (f.name.getD []) host }

/-- A field that declares this can follow. -/
structure Admits (draft : Draft) (decl : Declaration) : Prop where
  entry : draft.entry = none ∨ decl.exported? = none
  names : ∀ f ∈ draft.functions, ∀ g, decl.function? = some g → f.name = g.name → f.name = none

theorem add_functions (draft : Draft) (decl : Declaration) :
    (draft.add decl).functions = draft.functions ++ decl.function?.toList := by
  match decl with
  | .global _ _ => exact (List.append_nil _).symm
  | .function f none => rfl
  | .function f (some host) =>
    show (draft.withEntry f).functions = draft.functions ++ []
    rw [List.append_nil, withEntry]
    split <;> rfl

theorem add_entry (draft : Draft) (decl : Declaration) :
    (draft.add decl).entry = decl.exported?.or draft.entry := by
  have hfunction : ∀ f : Func,
      (draft.withEntry f).entry = (if f.exported.isSome then some f else none).or draft.entry := by
    intro f
    rw [withEntry]
    split <;> rfl
  cases decl with
  | global => rfl
  | function f host =>
    cases host with
    | none => exact hfunction f
    | some host => exact hfunction f

/-- After a declaration those are admitted that were before and that get along with it. -/
theorem admits_add {a b : Declaration} :
    (draft.add a).Admits b ↔ draft.Admits b ∧ a.Compatible b := by
  constructor
  · intro h
    have hnames := h.names
    rw [add_functions] at hnames
    refine ⟨⟨?_, fun f hf => hnames f (List.mem_append_left _ hf)⟩, ⟨?_, fun f hf => ?_⟩⟩
    · refine h.entry.imp (fun hnone => ?_) id
      rw [add_entry, Option.or_eq_none_iff] at hnone
      exact hnone.2
    · refine h.entry.imp (fun hnone => ?_) id
      rw [add_entry, Option.or_eq_none_iff] at hnone
      exact hnone.1
    · exact hnames f (List.mem_append_right _ (Option.mem_toList.mpr hf))
  · rintro ⟨hdraft, ha⟩
    refine ⟨?_, ?_⟩
    · rw [add_entry, Option.or_eq_none_iff]
      rcases hdraft.entry with hnone | hnone
      · exact ha.entry.imp (fun hnone' => ⟨hnone', hnone⟩) id
      · exact .inr hnone
    · rw [add_functions]
      refine List.forall_mem_append.mpr ⟨hdraft.names, fun f hf => ?_⟩
      exact ha.names f (Option.mem_toList.mp hf)

/-! ## Reading fields -/

/-- A function is entered exactly if its name is new. -/
theorem withFunction_eq_ok_iff {f : Func} :
    draft.withFunction f = .ok next ↔
      (∀ g ∈ draft.functions, g.name = f.name → g.name = none) ∧
        next = draft.add (.function f none) := by
  have hnew : (f.name.bind fun name => draft.functions.find? fun g => g.name = some name) = none ↔
      ∀ g ∈ draft.functions, g.name = f.name → g.name = none := by
    cases f.name with
    | none => exact ⟨fun _ g _ heq => heq, fun _ => rfl⟩
    | some name =>
      show draft.functions.find? (fun g => g.name = some name) = none ↔ _
      rw [List.find?_eq_none]
      constructor
      · intro h g hg heq
        exact absurd (decide_eq_true heq) (h g hg)
      · intro h g hg heq
        have hname := of_decide_eq_true heq
        rw [h g hg hname] at hname
        cases hname
  rw [withFunction, ← hnew]
  cases f.name.bind fun name => draft.functions.find? fun g => g.name = some name with
  | some g => exact ⟨fun h => (nomatch h), fun h => (nomatch h.1)⟩
  | none => exact ⟨fun h => by cases h; exact ⟨rfl, rfl⟩, fun h => by rw [h.2]; rfl⟩

/-- Only a function that is not imported needs a new name. -/
theorem complete_eq_ok_iff {f : Func} {host : Option Host} :
    draft.complete f host = .ok next ↔
      (∀ g ∈ draft.functions, ∀ f', Declaration.function? (.function f host) = some f' →
        g.name = f'.name → g.name = none) ∧ next = draft.add (.function f host) := by
  cases host with
  | none =>
    rw [complete, withFunction_eq_ok_iff]
    constructor
    · rintro ⟨hnames, hnext⟩
      exact ⟨fun g hg f' hf' => by cases hf'; exact hnames g hg, hnext⟩
    · rintro ⟨hnames, hnext⟩
      exact ⟨fun g hg => hnames g hg f rfl, hnext⟩
  | some host =>
    constructor
    · intro h
      cases h
      exact ⟨fun g _ f' hf' => (nomatch hf'), rfl⟩
    · rintro ⟨-, rfl⟩
      rfl

theorem withField_of_func {field : Datum} (h : field.head = "func") :
    draft.withField field =
      draft.withFunctionItems { Func.empty with name := functionName? (field.items.drop 1) }
        (afterName (field.items.drop 1)) := by
  rw [withField, if_neg (by rw [h]; decide), if_pos h]
  split
  · next hitems => rw [hitems]; rfl
  · next hunnamed =>
    rw [afterName_of_ne hunnamed]
    have hname : functionName? (field.items.drop 1) = none := by
      unfold functionName?
      split
      · next name rest hitems => exact absurd hitems (hunnamed name rest)
      · rfl
    rw [hname]
    rfl

/-- A field can be read if it declares something that the draft admits, and reading it adds that. -/
theorem withField_eq_ok_iff {field : Datum} :
    draft.withField field = .ok next ↔
      ∃ decl, field.Declares decl ∧ draft.Admits decl ∧ next = draft.add decl := by
  constructor
  · intro h
    by_cases hfunc : field.head = "func"
    · rw [withField_of_func hfunc] at h
      obtain ⟨f, host, hdeclared, hentry, hnext⟩ := declaredAs_of_withFunctionItems h
      obtain ⟨hnames, hnext⟩ := complete_eq_ok_iff.mp hnext
      refine ⟨.function f host, .function hfunc hdeclared, ⟨?_, hnames⟩, hnext⟩
      by_cases hexported : f.exported.isSome = true
      · exact .inl (hentry rfl hexported)
      · exact .inr (if_neg hexported)
    · unfold withField at h
      split at h
      · next hglobal =>
        split at h
        · next items =>
          split at h
          · next n constant =>
            cases h
            exact ⟨.global _ n, .global hglobal items constant,
              ⟨.inr rfl, fun _ _ _ hg => (nomatch hg)⟩, rfl⟩
          · cases h
        · cases h
      · cases h
  · rintro ⟨decl, hdecl, hadmits, rfl⟩
    cases hdecl with
    | global head items constant =>
      rw [withField, if_pos head, items]
      simp only [constant]
      rfl
    | @function f host head reads =>
      rw [withField_of_func head, withFunctionItems_of_declaredAs reads]
      · exact complete_eq_ok_iff.mpr ⟨hadmits.names, rfl⟩
      · intro _ hexported
        refine hadmits.entry.resolve_right fun hnone => ?_
        rw [Declaration.exported?, if_pos hexported] at hnone
        cases hnone

/-- Fields can be read if each declares something that the draft admits and these are compatible
with each other. -/
theorem withFields_eq_ok_iff {fields : List Datum} :
    draft.withFields fields = .ok next ↔
      ∃ decls, List.Forall₂ Datum.Declares fields decls ∧ (∀ decl ∈ decls, draft.Admits decl) ∧
        decls.Pairwise Declaration.Compatible ∧ next = decls.foldl add draft := by
  induction fields generalizing draft with
  | nil =>
    constructor
    · intro h
      cases h
      exact ⟨[], .nil, List.forall_mem_nil _, .nil, rfl⟩
    · rintro ⟨_, ⟨⟩, -, -, rfl⟩
      rfl
  | cons field rest ih =>
    rw [withFields, bind_eq_ok]
    constructor
    · rintro ⟨middle, hfield, hrest⟩
      obtain ⟨decl, hdecl, hadmits, rfl⟩ := withField_eq_ok_iff.mp hfield
      obtain ⟨decls, hdecls, hall, hpairs, rfl⟩ := ih.mp hrest
      refine ⟨decl :: decls, .cons hdecl hdecls, List.forall_mem_cons.mpr ⟨hadmits, ?_⟩,
        .cons ?_ hpairs, rfl⟩
      · exact fun b hb => (admits_add.mp (hall b hb)).1
      · exact fun b hb => (admits_add.mp (hall b hb)).2
    · rintro ⟨_, hdecls, hall, hpairs, rfl⟩
      cases hdecls with
      | @cons _ decl _ decls hdecl hdecls =>
        obtain ⟨hadmits, hrest⟩ := List.forall_mem_cons.mp hall
        obtain ⟨hfirst, hpairs⟩ := List.pairwise_cons.mp hpairs
        refine ⟨draft.add decl, withField_eq_ok_iff.mpr ⟨decl, hdecl, hadmits, rfl⟩, ?_⟩
        refine ih.mpr ⟨decls, hdecls, fun b hb => ?_, hpairs, rfl⟩
        exact admits_add.mpr ⟨hrest b hb, hfirst b hb⟩

end Module.Draft

end WatCompiler
