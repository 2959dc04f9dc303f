import Mathlib.Data.List.Perm.Basic
import WatCompiler.Proofs.Machine.Alike
import WatCompiler.Proofs.Program.ReadProgram
import WatCompiler.Proofs.Typing.Places
import WatCompiler.Proofs.Typing.Reordering
import WatCompiler.Proofs.Wat.Compiled
import WatCompiler.Proofs.Wat.Total

/-!
# Programs with reordered definitions

The order in which a program defines its functions and global variables changes nothing
(`reordered_definitions`): neither whether it passes the check, nor its annotations, nor what its
module does. The module of the reordered program has the same functions and globals in another
order, so it gives every name the same meaning and runs alike.
-/

namespace WatCompiler

/-- In another order the first element that passes a test is the same, if only one passes it. -/
theorem find?_eq_of_perm {α : Type} {test : α → Bool} {l l' : List α} (h : l.Perm l')
    (honly : ∀ a ∈ l, ∀ b ∈ l, test a = true → test b = true → a = b) :
    l.find? test = l'.find? test := by
  cases hfind : l.find? test with
  | none =>
    refine (List.find?_eq_none.mpr fun a ha => ?_).symm
    exact List.find?_eq_none.mp hfind a (h.mem_iff.mpr ha)
  | some a =>
    have ha : a ∈ l := List.mem_of_find?_eq_some hfind
    cases hfind' : l'.find? test with
    | none =>
      exact absurd (List.find?_some hfind) (List.find?_eq_none.mp hfind' a (h.mem_iff.mp ha))
    | some b =>
      have hb : b ∈ l := h.mem_iff.mpr (List.mem_of_find?_eq_some hfind')
      rw [honly a ha b hb (List.find?_some hfind) (List.find?_some hfind')]

namespace Code

variable {q q' : Program Ty} {m m' : Module}

/-- A function of the program has only one code. -/
theorem IsFunction.unique : Relator.RightUnique IsFunction := by
  rintro f ⟨_, _, _, _, _, _⟩ ⟨_, _, _, _, _, _⟩ h h'
  obtain ⟨rfl, rfl, rfl, rfl, rfl, init, code, next, hinit, hcode, rfl⟩ := h
  obtain ⟨rfl, rfl, rfl, rfl, rfl, init', code', next', hinit', hcode', rfl⟩ := h'
  rw [hinit] at hinit'
  rw [hcode] at hcode'
  cases hinit'
  cases hcode'
  rfl

theorem IsEntry.unique {body : List (Stmt Ty)} {g g' : Func} (h : IsEntry body g)
    (h' : IsEntry body g') (hexported : g.exported = g'.exported) : g = g' := by
  obtain ⟨_, _, _, _, _, _⟩ := g
  obtain ⟨_, _, _, _, _, _⟩ := g'
  obtain ⟨rfl, rfl, rfl, rfl, code, next, hcode, rfl⟩ := h
  obtain ⟨rfl, rfl, rfl, rfl, code', next', hcode', rfl⟩ := h'
  rw [hcode] at hcode'
  cases hcode'
  cases hexported
  rfl

/-- The functions of a module have different names, or none. -/
theorem IsModule.nodup_names (hm : IsModule q m) (ht : q.WellTyped) :
    (m.functions.map Func.name).Nodup := by
  obtain ⟨gs, hgs, hfunctions⟩ := hm.functions
  have hnames : gs.map Func.name = (q.functions.map FuncDef.name).map (some ∘ identifier) := by
    have hheaders := congrArg (List.map Prod.fst) (headers_eq hgs)
    rw [List.map_map, List.map_map] at hheaders
    rw [List.map_map]
    exact hheaders
  have hdistinct : (q.functions.map FuncDef.name).Nodup := by
    have hnodup := ht.distinctFunctions
    rw [Program.scope, Table.names_append] at hnodup
    have hown := (List.nodup_append.mp hnodup).2.1
    rwa [Table.names, List.map_map] at hown
  rw [hfunctions, List.map_append, hnames, List.nodup_append]
  refine ⟨hdistinct.map fun _ _ he => identifier_injective (Option.some.inj he),
    List.nodup_singleton _, ?_⟩
  -- Only the exported function has no name.
  rintro name hname _ hentry rfl
  obtain ⟨_, -, rfl⟩ := List.mem_map.mp hname
  rw [List.map_singleton, List.mem_singleton, hm.entry.name] at hentry
  cases hentry

/-- **The modules of reordered programs are alike.** -/
theorem IsModule.alike (hm : IsModule q m) (hm' : IsModule q' m') (ht : q.WellTyped)
    (h : q.Reorders q') (hexported : m.entry.exported = m'.entry.exported) : m.Alike m' := by
  have hentry : m.entry = m'.entry := hm.entry.unique (h.stmts ▸ hm'.entry) hexported
  obtain ⟨gs, hgs, hfunctions⟩ := id hm.functions
  obtain ⟨gs', hgs', hfunctions'⟩ := id hm'.functions
  have hperm : m.functions.Perm m'.functions := by
    rw [hfunctions, hfunctions', hentry]
    exact (List.rel_perm_imp IsFunction.unique hgs hgs' h.functions).append_right _
  refine ⟨?_, ?_, ?_, hentry⟩
  · rw [hm.globals, hm'.globals]
    refine Table.alike_of_perm ?_ (h.globals.map _)
    have hdistinct := ht.distinctGlobals
    rw [Program.scope, Table.names, List.map_map] at hdistinct
    have hmapped := hdistinct.map fun _ _ => identifier_injective
    rw [List.map_map] at hmapped
    rwa [Table.names, List.map_map]
  · rw [hm.imports, hm'.imports]
    exact fun _ => rfl
  · intro name
    refine find?_eq_of_perm hperm fun a ha b hb hna hnb => ?_
    refine List.inj_on_of_nodup_map (hm.nodup_names ht) ha hb ?_
    exact (of_decide_eq_true hna).trans (of_decide_eq_true hnb).symm

end Code

variable {α : Type} [WatCompiler.Annotated α] {p p' : Program α}

theorem Program.Reorders.proper {P : Position → Prop} (h : p.Reorders p') (hp : p.Proper P) :
    p'.Proper P where
  globals v hv := hp.globals v (h.globals.mem_iff.mpr hv)
  functions f hf := hp.functions f (h.functions.mem_iff.mpr hf)
  stmts := h.stmts ▸ hp.stmts

/-- A proper program that passes the check has a module. -/
theorem exists_module_of_check {P : Position → Prop} {q : Program Ty} (hp : p.Proper P)
    (h : p.check = .ok q) :
    ∃ wat m, q.toWat = .ok wat ∧ Module.parse wat = .ok m ∧ Code.IsModule q m ∧
      m.entry.exported = some "exported_func" := by
  have hproper : q.Proper P := (check_answers hp).of_eq_ok h
  have htyped : q.WellTyped := (wellTyped_of_check h).1
  obtain ⟨wat, hwat⟩ := exists_toWat hproper htyped
  obtain ⟨m, hm, his, hexported⟩ := Code.isModule_of_toWat htyped hproper.named hwat
  exact ⟨wat, m, hwat, hm, his, hexported⟩

/-- **The order of definitions is irrelevant.** If the functions and the global variables of a
program that was read from a source are put in another order, both programs pass the check or
neither does. If they do, every function, every global variable and the top-level statements get the
same annotations in both, both have modules, and under every limit of steps these run alike: with as
many moves neither run is over, or both have ended with the same output, the same globals, the same
number of steps and the same failure, if any. -/
theorem reordered_definitions {source : Text} {p p' : Program Unit}
    (h : parseProgram source = .ok p)
    (hreorders : p.Reorders p') :
    ((∃ q, p.check = .ok q) ↔ ∃ q', p'.check = .ok q') ∧
    ∀ q q', p.check = .ok q → p'.check = .ok q' →
      q.stmts = q'.stmts ∧
      q.functions.length = p.functions.length ∧ q'.functions.length = p'.functions.length ∧
      (p.functions.zip q.functions).Perm (p'.functions.zip q'.functions) ∧
      q.globals.length = p.globals.length ∧ q'.globals.length = p'.globals.length ∧
      (p.globals.zip q.globals).Perm (p'.globals.zip q'.globals) ∧
      ∃ wat wat' m m', q.toWat = .ok wat ∧ q'.toWat = .ok wat' ∧ Module.parse wat = .ok m ∧
        Module.parse wat' = .ok m' ∧
        ∀ limit room fuel, Option.Rel Run.Alike ((Machine.ofModule m limit).run room fuel)
          ((Machine.ofModule m' limit).run room fuel) := by
  constructor
  · constructor
    · rintro ⟨q, hq⟩
      obtain ⟨q', hq', -⟩ := check_of_reorders hreorders hq
      exact ⟨q', hq'⟩
    · rintro ⟨q', hq'⟩
      obtain ⟨q, hq, -⟩ := check_of_reorders hreorders.symm hq'
      exact ⟨q, hq⟩
  · intro q q' hq hq'
    obtain ⟨found, hfound, hsame, hfunctions, hglobals⟩ := check_of_reorders hreorders hq
    rw [hq'] at hfound
    cases hfound
    obtain ⟨htyped, hnames, hfunctionNames⟩ := wellTyped_of_check hq
    obtain ⟨-, hnames', hfunctionNames'⟩ := wellTyped_of_check hq'
    have hlength : q.globals.length = p.globals.length := by
      simpa only [List.length_map] using congrArg List.length hnames
    have hlength' : q'.globals.length = p'.globals.length := by
      simpa only [List.length_map] using congrArg List.length hnames'
    obtain ⟨_, _, _, _, _, _, hitems⟩ := itemsFrom_of_parseProgram h
    obtain ⟨wat, m, hwat, hm, his, hexported⟩ := exists_module_of_check hitems.proper hq
    obtain ⟨wat', m', hwat', hm', his', hexported'⟩ :=
      exists_module_of_check (hreorders.proper hitems.proper) hq'
    -- Only that the definitions are the same is needed from here on, not how they were put in
    -- order.
    have halike : m.Alike m' := his.alike his' htyped hsame (hexported.trans hexported'.symm)
    exact ⟨hsame.stmts, hfunctionNames.length_eq.symm, hfunctionNames'.length_eq.symm,
      hfunctions, hlength,
      hlength', hglobals, wat, wat', m, m', hwat, hwat', hm, hm', halike.run⟩

/-- A program with two global variables and a function that calls the one after it. -/
def forwardSource : Text :=
  "a:int = 1\nb:int = 2\ndef f() -> int:\n  return g()\ndef g() -> int:\n  return b\nprint(f() + a)\n"

/-- With its definitions the other way round the program means the same. -/
theorem reordered_definitions_forwardSource :
    ∃ p q q', parseProgram forwardSource = .ok p ∧ p.functions.map FuncDef.name = ["f", "g"] ∧
      p.globals.map VarDef.name = ["a", "b"] ∧ p.check = .ok q ∧
      Program.check ⟨p.functions.reverse, p.globals.reverse, p.stmts⟩ = .ok q' ∧
      q.stmts = q'.stmts ∧
      ∃ wat wat' m m', q.toWat = .ok wat ∧ q'.toWat = .ok wat' ∧ Module.parse wat = .ok m ∧
        Module.parse wat' = .ok m' ∧
        ∀ limit room fuel, Option.Rel Run.Alike ((Machine.ofModule m limit).run room fuel)
          ((Machine.ofModule m' limit).run room fuel) := by
  have hparsed : (parseProgram forwardSource).toOption.map (fun p =>
      (p.functions.map FuncDef.name, p.globals.map VarDef.name, p.check.toOption.isSome)) =
        some (([("f" : Text), "g"], [("a" : Text), "b"], true)) := by
    decide +kernel
  obtain ⟨p, hp, hshape⟩ := toOption_map_eq_some.mp hparsed
  obtain ⟨hfunctions, hrest⟩ := Prod.mk.inj hshape
  obtain ⟨hglobals, hchecked⟩ := Prod.mk.inj hrest
  obtain ⟨q, hq⟩ : ∃ q, p.check = .ok q := by
    cases hcheck : p.check with
    | ok q => exact ⟨q, rfl⟩
    | error fault =>
      rw [hcheck] at hchecked
      cases hchecked
  have hreorders : p.Reorders ⟨p.functions.reverse, p.globals.reverse, p.stmts⟩ :=
    ⟨(List.reverse_perm _).symm, (List.reverse_perm _).symm, rfl⟩
  obtain ⟨haccepts, hsame⟩ := reordered_definitions hp hreorders
  obtain ⟨q', hq'⟩ := haccepts.mp ⟨q, hq⟩
  obtain ⟨hstmts, -, -, -, -, -, -, hruns⟩ := hsame q q' hq hq'
  exact ⟨p, q, q', hp, hfunctions, hglobals, hq, hq', hstmts, hruns⟩

end WatCompiler
