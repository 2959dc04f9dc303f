import Mathlib.Data.List.Pairwise
import Mathlib.Data.List.Perm.Basic
import WatCompiler.Proofs.Compile.Reordering
import WatCompiler.Proofs.Machine.Alike
import WatCompiler.Proofs.Validation.Declarations

/-!
# The order of the fields of a module

The fields of a module can come in any order, as long as no two globals and no two imports have the
same name: of these the last one counts. A module with its fields in another order gives every name
the same meaning (`exists_ofDatum_of_perm`). So it is valid as well, because validation looks names
up and nothing else (`function_alike`), and it runs alike (`reordered_fields`).
-/

namespace WatCompiler

/-! ## Names of fields -/

/-- The name of the global that a field declares. -/
def Datum.globalName? (field : Datum) : Option Text :=
  if field.head = "global" then field.items[1]?.map Datum.text else none

/-- Of the declarations of a function, one is an import. -/
def endsInImport : List Datum → Bool
  | [] => false
  | item :: rest =>
    decide (item.head = "import") || (decide (item.head ∈ declarationHeads) && endsInImport rest)

/-- The name of the import that a field declares. -/
def Datum.importName? (field : Datum) : Option Text :=
  if field.head = "func" ∧ endsInImport (afterName (field.items.drop 1)) = true then
    some ((functionName? (field.items.drop 1)).getD [])
  else none

/-- A function is imported exactly if its items end in an import. -/
theorem Func.DeclaredAs.endsInImport_eq {f g : Func} {items : List Datum} {host : Option Host}
    (h : f.DeclaredAs items g host) : endsInImport items = host.isSome := by
  induction h with
  | done => rfl
  | @body f item rest head =>
    have himport : ¬ item.head = "import" := by
      intro h
      rw [h] at head
      exact head List.mem_cons_self
    rw [endsInImport, decide_eq_false himport, decide_eq_false head]
    rfl
  | imported f rest head => rw [endsInImport, decide_eq_true head]; rfl
  | exported head _ _ _ ih | param head _ _ ih | result head _ ih | locals head _ _ ih =>
    rw [endsInImport, head, ih]
    rfl

/-- The names that a field shows are those of its declaration. -/
theorem Datum.Declares.names {field : Datum} {decl : Declaration} (h : field.Declares decl) :
    field.globalName? = decl.global?.map Prod.fst ∧
      field.importName? = decl.import?.map Prod.fst := by
  cases h with
  | @global word name type value n head items constant =>
    rw [globalName?, if_pos head, items, importName?, if_neg]
    · exact ⟨rfl, rfl⟩
    · rw [head]
      exact fun h => absurd h.1 (by decide)
  | @function f host head reads =>
    rw [globalName?, if_neg (by rw [head]; decide), importName?, reads.endsInImport_eq]
    refine ⟨rfl, ?_⟩
    cases host with
    | none => exact if_neg fun h => (nomatch h.2)
    | some host =>
      rw [if_pos ⟨head, rfl⟩]
      show _ = some (f.name.getD [])
      rw [reads.name_eq]

/-- Selecting from two lists that go together gives lists that go together. -/
theorem filterMap_eq_of_forall₂ {α β γ δ : Type} {R : α → β → Prop} {f : α → Option γ}
    {g : β → Option δ} {k : δ → γ} {as : List α} {bs : List β} (h : List.Forall₂ R as bs)
    (hR : ∀ a b, R a b → f a = (g b).map k) : as.filterMap f = (bs.filterMap g).map k := by
  induction h with
  | nil => rfl
  | @cons a b as bs hab _ ih =>
    rw [List.filterMap_cons, List.filterMap_cons, hR a b hab]
    cases g b with
    | none => exact ih
    | some d => exact congrArg (k d :: ·) ih

/-! ## Drafts from declarations -/

namespace Table

variable {α : Type}

/-- Enters names and values in order. -/
def insertAll (t entries : Table α) : Table α := entries.foldl (fun t e => t.insert e.1 e.2) t

/-- Entries under new names are appended. -/
theorem insertAll_of_nodup {t entries : Table α} (h : (t.names ++ entries.names).Nodup) :
    t.insertAll entries = t ++ entries := by
  induction entries generalizing t with
  | nil => exact (List.append_nil t).symm
  | cons e rest ih =>
    obtain ⟨name, value⟩ := e
    have hnew : name ∉ t.names := fun hmem =>
      (List.nodup_append.mp h).2.2 name hmem name List.mem_cons_self rfl
    show (t.insert name value).insertAll rest = _
    rw [insert_of_not_mem value hnew, ih, List.append_assoc]
    · rfl
    · rwa [names_append, List.append_assoc]

end Table

namespace Module.Draft

/-- The draft that declarations give, part by part. -/
theorem foldl_add (decls : List Declaration) (draft : Draft) :
    decls.foldl add draft =
      ⟨draft.globals.insertAll (decls.filterMap Declaration.global?),
        draft.imports.insertAll (decls.filterMap Declaration.import?),
        draft.functions ++ decls.filterMap Declaration.function?,
        (decls.filterMap Declaration.exported?).foldl (fun _ f => some f) draft.entry⟩ := by
  induction decls generalizing draft with
  | nil =>
    simp only [List.filterMap_nil, List.append_nil]
    rfl
  | cons decl rest ih =>
    rw [List.foldl_cons, ih]
    match decl with
    | .global name value => rfl
    | .function f host =>
      have hentry : (Declaration.function f host).exported? =
          if f.exported.isSome then some f else none := rfl
      rw [List.filterMap_cons, List.filterMap_cons, List.filterMap_cons,
        List.filterMap_cons, hentry]
      cases host <;> by_cases h : f.exported.isSome = true <;>
        simp [add, withEntry, h, Declaration.global?, Declaration.import?, Declaration.function?,
          Table.insertAll]

/-- Two drafts give every name the same meaning. -/
structure Alike (a b : Draft) : Prop where
  globals : a.globals.Alike b.globals
  imports : a.imports.Alike b.imports
  functions : a.functions.Perm b.functions
  lookup : ∀ name, a.functions.find? (fun f => f.name = some name) =
    b.functions.find? fun f => f.name = some name
  entry : a.entry = b.entry

theorem insertAll_alike_of_perm {α : Type} {entries entries' : Table α} (h : entries.Perm entries')
    (hn : (entries.map Prod.fst).Nodup) :
    (Table.insertAll [] entries).Alike (Table.insertAll [] entries') := by
  have hn' : (entries'.map Prod.fst).Nodup := (h.map Prod.fst).nodup_iff.mp hn
  have hall : Table.insertAll [] entries = entries := Table.insertAll_of_nodup hn
  have hall' : Table.insertAll [] entries' = entries' := Table.insertAll_of_nodup hn'
  rw [hall, hall']
  exact Table.alike_of_perm hn h

/-- With one export at most, the exported function does not depend on the order. -/
theorem entries_eq_of_perm {decls decls' : List Declaration} (h : decls.Perm decls')
    (hpairs : decls.Pairwise Declaration.Compatible) :
    decls.filterMap Declaration.exported? = decls'.filterMap Declaration.exported? := by
  have hperm := h.filterMap Declaration.exported?
  have halone : (decls.filterMap Declaration.exported?).Pairwise fun _ _ => False := by
    rw [List.pairwise_filterMap]
    refine hpairs.imp fun {a b} hab f hf g hg => ?_
    rcases hab.entry with hnone | hnone
    · rw [hnone] at hf
      cases hf
    · rw [hnone] at hg
      cases hg
  match hentries : decls.filterMap Declaration.exported? with
  | [] =>
    rw [hentries] at hperm
    exact hperm.nil_eq
  | [f] =>
    rw [hentries] at hperm
    exact (List.perm_singleton.mp hperm.symm).symm
  | f :: g :: rest =>
    rw [hentries] at halone
    exact ((List.pairwise_cons.mp halone).1 g List.mem_cons_self).elim

/-- Declarations that get along make the same draft in any order, up to the order of its tables. -/
theorem alike_of_perm {decls decls' : List Declaration} (h : decls.Perm decls')
    (hpairs : decls.Pairwise Declaration.Compatible)
    (hglobals : ((decls.filterMap Declaration.global?).map Prod.fst).Nodup)
    (himports : ((decls.filterMap Declaration.import?).map Prod.fst).Nodup) :
    (decls.foldl add empty).Alike (decls'.foldl add empty) := by
  have hfunctions := h.filterMap Declaration.function?
  -- Functions of the same name are the same function.
  have honly : ∀ f ∈ decls.filterMap Declaration.function?,
      ∀ g ∈ decls.filterMap Declaration.function?, f.name = g.name → f.name ≠ none → f = g := by
    have hdistinct : (decls.filterMap Declaration.function?).Pairwise
        fun f g => f.name = g.name → f.name ≠ none → f = g := by
      rw [List.pairwise_filterMap]
      refine hpairs.imp fun {a b} hab f hf g hg heq hne => ?_
      exact absurd (hab.names f hf g hg heq) hne
    have hsymm : Std.Symm fun f g : Func => f.name = g.name → f.name ≠ none → f = g :=
      ⟨fun f g hfg heq hne => (hfg heq.symm (heq ▸ hne)).symm⟩
    intro f hf g hg
    exact hdistinct.forall_of_forall (fun f _ _ _ => rfl) hf hg
  rw [foldl_add, foldl_add, ← entries_eq_of_perm h hpairs]
  refine ⟨insertAll_alike_of_perm (h.filterMap _) hglobals,
    insertAll_alike_of_perm (h.filterMap _) himports, hfunctions, fun name => ?_, rfl⟩
  refine find?_eq_of_perm hfunctions fun f hf g hg hfname hgname => ?_
  have hfname' := of_decide_eq_true hfname
  have hgname' := of_decide_eq_true hgname
  refine honly f hf g hg (hfname'.trans hgname'.symm) ?_
  rw [hfname']
  exact Option.some_ne_none name

/-- Fields in another order can be read as well, and they give every name the same meaning. -/
theorem exists_withFields_of_perm {fields fields' : List Datum} {draft : Draft}
    (h : fields.Perm fields') (hglobals : (fields.filterMap Datum.globalName?).Nodup)
    (himports : (fields.filterMap Datum.importName?).Nodup)
    (hdraft : empty.withFields fields = .ok draft) :
    ∃ draft', empty.withFields fields' = .ok draft' ∧ draft.Alike draft' := by
  obtain ⟨decls, hdecls, hadmits, hpairs, rfl⟩ := withFields_eq_ok_iff.mp hdraft
  obtain ⟨decls', hdecls', hperm⟩ := List.perm_comp_forall₂ h.symm hdecls
  have hpairs' : decls'.Pairwise Declaration.Compatible :=
    (hperm.pairwise_iff fun h => h.symm).mpr hpairs
  rw [filterMap_eq_of_forall₂ hdecls fun _ _ hd => hd.names.1] at hglobals
  rw [filterMap_eq_of_forall₂ hdecls fun _ _ hd => hd.names.2] at himports
  refine ⟨decls'.foldl add empty, withFields_eq_ok_iff.mpr ⟨decls', hdecls', ?_, hpairs', rfl⟩,
    alike_of_perm hperm.symm hpairs hglobals himports⟩
  exact fun decl hdecl => hadmits decl (hperm.mem_iff.mp hdecl)

end Module.Draft

/-! ## Validation looks names up -/

namespace Validation

variable {m m' : Module} {f : Func}

mutual

/-- Validation only looks names up, so that alike modules give the same answer. -/
theorem instr_alike (hm : m.Alike m') (labels : List Text) (h : Height) (d : Datum) :
    instr m f labels h d = instr m' f labels h d := by
  have hglobals : ∀ name, m.globals.has name = m'.globals.has name := fun name => by
    rw [Table.has, Table.has, hm.globals name]
  rw [instr.eq_def, instr.eq_def]
  simp only [hglobals, hm.signature?]
  split
  case h_11 label body hd =>
    have hsize := Datum.sizeOf_block_body_lt hd
    split
    · next name _ => rw [nested_alike hm labels name body]
    · rfl
  case h_12 label body hd =>
    have hsize := Datum.sizeOf_loop_body_lt hd
    split
    · next name _ => rw [nested_alike hm labels name body]
    · rfl
  case h_13 arms hd =>
    have hsize := Datum.sizeOf_cond_arms_lt hd
    rw [conditional_alike hm labels d armHeads arms]
  all_goals rfl
termination_by 2 * sizeOf d
decreasing_by all_goals omega

theorem seq_alike (hm : m.Alike m') (labels : List Text) (h : Height) (body : List Datum) :
    seq m f labels h body = seq m' f labels h body := by
  match body with
  | [] => rw [seq, seq]
  | d :: rest =>
    rw [seq, seq, instr_alike hm labels h d]
    exact bind_congr fun h => seq_alike hm labels h rest
termination_by 2 * sizeOf body
decreasing_by all_goals simp +arith

theorem nested_alike (hm : m.Alike m') (labels : List Text) (label : Text) (body : List Datum) :
    nested m f labels label body = nested m' f labels label body := by
  rw [nested, nested, seq_alike hm (label :: labels) .zero body]
termination_by 2 * sizeOf body + 1
decreasing_by exact Nat.lt_succ_self _

theorem conditional_alike (hm : m.Alike m') (labels : List Text) (whole : Datum) (heads : List Text)
    (arms : List Datum) :
    conditional m f labels whole heads arms = conditional m' f labels whole heads arms := by
  match arms, heads with
  | [], _ => rw [conditional, conditional]
  | _ :: _, [] => rw [conditional, conditional]
  | arm :: rest, expected :: heads =>
    rw [conditional, conditional]
    split
    · next hd =>
      have hsize := arm.sizeOf_items_drop_lt (hd.1 ▸ hd.2) 1
      rw [nested_alike hm labels [] (arm.items.drop 1),
        conditional_alike hm labels whole heads rest]
    · rfl
termination_by 2 * sizeOf arms
decreasing_by
  all_goals simp only [List.cons.sizeOf_spec]
  all_goals omega

end

theorem function_alike (hm : m.Alike m') : function m f = function m' f := by
  rw [function, function, seq_alike hm]

end Validation

/-! ## Modules with reordered fields -/

namespace Module

/-- A module is loaded exactly if its fields are entered, it has an entry and its functions are
valid. -/
theorem ofDatum_eq_ok_iff {d : Datum} {m : Module} (hhead : d.head = "module") :
    ofDatum d = .ok m ↔
      ∃ draft, Draft.empty.withFields (d.items.drop 1) = .ok draft ∧ draft.entry = some m.entry ∧
        m = ⟨draft.globals, draft.imports, draft.functions, m.entry⟩ ∧
        ∀ f ∈ m.functions, Validation.function m f = .ok () := by
  rw [ofDatum, if_pos hhead, bind_eq_ok]
  constructor
  · rintro ⟨draft, hdraft, h⟩
    split at h
    · cases h
    · next entry hentry =>
      obtain ⟨⟨⟩, hvalid, h⟩ := bind_eq_ok.mp h
      cases h
      exact ⟨draft, hdraft, hentry, rfl, Validation.function_of_validate hvalid⟩
  · rintro ⟨draft, hdraft, hentry, hm, hvalid⟩
    refine ⟨draft, hdraft, ?_⟩
    have hfunctions : m.functions = draft.functions := by rw [hm]
    rw [hfunctions] at hvalid
    rw [hentry]
    dsimp only
    rw [← hm]
    exact bind_eq_ok.mpr ⟨(), Code.validate_eq_ok hvalid, rfl⟩

/-- Fields in another order make an alike module. -/
theorem exists_ofDatum_of_perm {d d' : Datum} {m : Module} (hhead : d.head = "module")
    (hhead' : d'.head = "module") (hperm : (d.items.drop 1).Perm (d'.items.drop 1))
    (hglobals : ((d.items.drop 1).filterMap Datum.globalName?).Nodup)
    (himports : ((d.items.drop 1).filterMap Datum.importName?).Nodup) (h : ofDatum d = .ok m) :
    ∃ m', ofDatum d' = .ok m' ∧ m.Alike m' := by
  obtain ⟨draft, hdraft, hentry, hm, hvalid⟩ := (ofDatum_eq_ok_iff hhead).mp h
  obtain ⟨draft', hdraft', halike⟩ :=
    Draft.exists_withFields_of_perm hperm hglobals himports hdraft
  have hmodules : m.Alike ⟨draft'.globals, draft'.imports, draft'.functions, m.entry⟩ := by
    rw [hm]
    exact ⟨halike.globals, halike.imports, halike.lookup, rfl⟩
  have hfunctions : m.functions = draft.functions := by rw [hm]
  refine ⟨_, (ofDatum_eq_ok_iff hhead').mpr ⟨draft', hdraft', ?_, rfl, ?_⟩, hmodules⟩
  · rw [← halike.entry]
    exact hentry
  · intro f hf
    rw [← Validation.function_alike hmodules]
    refine hvalid f ?_
    rw [hfunctions]
    exact halike.functions.mem_iff.mpr hf

theorem parse_of_datum {wat : Text} {d : Datum} (h : Datum.parse wat = .ok d) :
    parse wat = ofDatum d := by
  rw [parse, h]

end Module

/-- **The fields of a module may come in any order.** If the globals have different names and so
have the imports, a module with the same fields in another order is accepted or refused with the
first one. If both are accepted, under every limit of steps they run alike: with as many moves
neither run is over, or both have ended with the same output, the same globals, the same number of
steps and the same failure, if any. -/
theorem reordered_fields {wat wat' : Text} {d d' : Datum} (hd : Datum.parse wat = .ok d)
    (hd' : Datum.parse wat' = .ok d') (hhead : d.head = "module") (hhead' : d'.head = "module")
    (hperm : (d.items.drop 1).Perm (d'.items.drop 1))
    (hglobals : ((d.items.drop 1).filterMap Datum.globalName?).Nodup)
    (himports : ((d.items.drop 1).filterMap Datum.importName?).Nodup) :
    ((∃ m, Module.parse wat = .ok m) ↔ ∃ m', Module.parse wat' = .ok m') ∧
      ∀ m m', Module.parse wat = .ok m → Module.parse wat' = .ok m' →
        ∀ limit room fuel, Option.Rel Run.Alike ((Machine.ofModule m limit).run room fuel)
          ((Machine.ofModule m' limit).run room fuel) := by
  rw [Module.parse_of_datum hd, Module.parse_of_datum hd']
  refine ⟨⟨?_, ?_⟩, ?_⟩
  · rintro ⟨m, hm⟩
    obtain ⟨m', hm', -⟩ :=
      Module.exists_ofDatum_of_perm hhead hhead' hperm hglobals himports hm
    exact ⟨m', hm'⟩
  · rintro ⟨m', hm'⟩
    obtain ⟨m, hm, -⟩ := Module.exists_ofDatum_of_perm hhead' hhead hperm.symm
      ((hperm.filterMap _).nodup_iff.mp hglobals) ((hperm.filterMap _).nodup_iff.mp himports) hm'
    exact ⟨m, hm⟩
  · intro m m' hm hm' limit room fuel
    obtain ⟨m'', hm'', halike⟩ :=
      Module.exists_ofDatum_of_perm hhead hhead' hperm hglobals himports hm
    rw [hm'] at hm''
    cases hm''
    exact halike.run limit room fuel

/-- The fields of a module in which the exported function, the function that it calls, the import
that this one calls and the global that it reads come one after the other. -/
def forwardFields : List Datum :=
  [.form [.symbol "func", .form [.symbol "export", .string "run"],
      .form [.symbol "local", .symbol "$x", .symbol "i32"], .form [.symbol "call", .symbol "$f"],
      .form [.symbol "local.set", .symbol "$x"]],
    .form [.symbol "func", .symbol "$f", .form [.symbol "result", .symbol "i32"],
      .form [.symbol "global.get", .symbol "$g"], .form [.symbol "call", .symbol "$a"]],
    .form [.symbol "func", .symbol "$a",
      .form [.symbol "import", .string "imports", .string "abs"]],
    .form [.symbol "global", .symbol "$g", .form [.symbol "mut", .symbol "i32"],
      .form [.symbol "i32.const", .integer "-3"]]]

/-- A module with given fields. -/
def moduleOf (fields : List Datum) : Datum := .form (.symbol "module" :: fields)

/-- Fields that use what only later ones declare, and the same fields the other way round. -/
theorem reordered_fields_forwardFields :
    ∃ m m', Module.parse (moduleOf forwardFields).render = .ok m ∧
      Module.parse (moduleOf forwardFields.reverse).render = .ok m' ∧
      ∀ limit room fuel, Option.Rel Run.Alike ((Machine.ofModule m limit).run room fuel)
        ((Machine.ofModule m' limit).run room fuel) := by
  have hfields : Datum.AllWellFormed forwardFields := by
    simp only [forwardFields, Datum.form, Datum.AllWellFormed, Datum.WellFormed,
      Datum.EntriesWellFormed, Table.names, List.map_nil, List.nodup_nil, and_true]
    decide
  have hmodule : ∀ fields, Datum.AllWellFormed fields → (moduleOf fields).WellFormed := by
    intro fields h
    refine ⟨⟨?_, h⟩, trivial, List.nodup_nil⟩
    show Datum.isSymbol "module" = true
    decide
  have hwf := hmodule forwardFields hfields
  have hwf' := hmodule forwardFields.reverse
    (Datum.allWellFormed_iff.mpr fun d hd =>
      Datum.allWellFormed_iff.mp hfields d (List.mem_reverse.mp hd))
  have haccepted : (Module.ofDatum (moduleOf forwardFields)).toOption.map (fun _ => ()) =
      some () := by
    decide +kernel
  obtain ⟨m, hm, -⟩ := toOption_map_eq_some.mp haccepted
  rw [← Module.parse_of_datum (Datum.parse_render hwf)] at hm
  obtain ⟨hiff, hrun⟩ := reordered_fields (Datum.parse_render hwf) (Datum.parse_render hwf') rfl rfl
    forwardFields.reverse_perm.symm (by decide) (by decide)
  obtain ⟨m', hm'⟩ := hiff.mp ⟨m, hm⟩
  exact ⟨m, m', hm, hm', hrun m m' hm hm'⟩

end WatCompiler
