import WatCompiler.Proofs.Program.ReadProgram

/-!
# Declared names are identifiers

What a source declares, its global variables, functions, parameters and local variables, has names
that are identifiers (`named_of_parseProgram`).
-/

namespace WatCompiler

open Token (isIdentifier)

/-- The function, its parameters and its local variables have names. -/
structure FuncDef.Named {α : Type} (f : FuncDef α) : Prop where
  name : isIdentifier f.name = true
  params : ∀ p ∈ f.params, isIdentifier p.name = true
  locals : ∀ v ∈ f.locals, isIdentifier v.name = true

/-- All that the program declares has names. -/
structure Program.Named {α : Type} (p : Program α) : Prop where
  globals : ∀ v ∈ p.globals, isIdentifier v.name = true
  functions : ∀ f ∈ p.functions, f.Named

theorem Program.Proper.named {α : Type} [WatCompiler.Annotated α] {P : Position → Prop}
    {p : Program α} (h : p.Proper P) :
    p.Named where
  globals v hv := (h.globals v hv).name
  functions f hf :=
    have hproper := h.functions f hf
    ⟨hproper.name, fun p hp => (hproper.params p hp).name, fun v hv => (hproper.locals v hv).name⟩

/-- All that a source declares has names. -/
theorem named_of_parseProgram {source : Text} {p : Program Unit}
    (h : parseProgram source = .ok p) : p.Named := by
  obtain ⟨_, _, _, _, _, _, hitems⟩ := itemsFrom_of_parseProgram h
  exact hitems.proper.named

end WatCompiler
