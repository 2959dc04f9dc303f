import WatCompiler.Proofs.Guarantee.Faults
import WatCompiler.Proofs.Program.Parts
import WatCompiler.Proofs.Wat.Loading

/-!
# The return guarantee is sound

What checking says that statements are sure to return is nothing or what the function declares, and
statements that are sure to return something never run off their end (`guarantee_sound`). So the
code behind the statements of a function, which returns zero, is never reached in a function that
returns a number or a truth value.
-/

namespace WatCompiler

open Typing (guarantee)
open Layout (data)

section Bodies

variable {α : Type}

/-- The body of a loop or of an arm of a conditional. -/
def Stmt.body : Stmt α → List (Stmt α)
  | .while_ _ _ body | .cond _ _ body _ => body
  | _ => []

/-- The lists of statements in a function: all of its statements, and the bodies inside it. -/
def FuncDef.bodies (f : FuncDef α) : List (List (Stmt α)) :=
  f.stmts :: (innerAll f.stmts).map Stmt.body

end Bodies

section Annotated

variable {returns : Ty}

theorem allAnnotated_iff {ss : List (Stmt Ty)} :
    AllAnnotated returns ss ↔ ∀ s ∈ ss, s.Annotated returns := by
  induction ss with
  | nil => exact ⟨fun _ => List.forall_mem_nil _, fun _ => trivial⟩
  | cons s rest ih => rw [AllAnnotated, ih, List.forall_mem_cons]

/-- The statements of an annotated statement are annotated for the same function. -/
theorem Stmt.Annotated.children (s : Stmt Ty) (h : s.Annotated returns) :
    ∀ s' ∈ s.children, s'.Annotated returns := by
  cases s with
  | while_ info test body => exact allAnnotated_iff.mp h.2
  | cond info test body orElse =>
    refine List.forall_mem_append.mpr ⟨allAnnotated_iff.mp h.2.1, ?_⟩
    cases orElse with
    | none => exact nofun
    | some next => exact List.forall_mem_singleton.mpr h.2.2
  | _ => exact nofun

theorem annotated_innerAll {ss : List (Stmt Ty)} (h : AllAnnotated returns ss) :
    ∀ s ∈ innerAll ss, s.Annotated returns :=
  forall_mem_innerAll Stmt.Annotated.children ss (allAnnotated_iff.mp h)

theorem Stmt.Annotated.body {s : Stmt Ty} (h : s.Annotated returns) :
    AllAnnotated returns s.body := by
  cases s with
  | while_ => exact h.2
  | cond => exact h.2.1
  | _ => trivial

/-- So are all bodies of a function. -/
theorem annotated_bodies {f : FuncDef Ty} (h : AllAnnotated returns f.stmts) :
    ∀ body ∈ f.bodies, AllAnnotated returns body := by
  refine List.forall_mem_cons.mpr ⟨h, ?_⟩
  intro body hbody
  obtain ⟨s, hs, rfl⟩ := List.mem_map.mp hbody
  exact (annotated_innerAll h s hs).body

end Annotated

namespace Typing

variable {α : Type} {scope : Scope}

/-- What checking finds out about the returns of a function. -/
theorem annotated_of_checkFuncDef {f : FuncDef α} {f' : FuncDef Ty}
    (h : checkFuncDef scope f = .ok f') :
    AllAnnotated f'.returns f'.stmts ∧ f'.bodyInfo.ann = guarantee f'.stmts ∧
      guarantee f'.stmts = f'.returns := by
  obtain ⟨scope₁, params, hparams, scope₂, locals, hlocals, stmts, hstmts, hsure, rfl⟩ :=
    checkFuncDef_eq_ok.mp h
  have hannotated := annotated_of_checkStmts f.stmts hstmts
  rw [scope_of_checkLocals hparams hlocals] at hannotated
  exact ⟨hannotated, rfl, hsure⟩

end Typing

namespace Code

/-- The code that gives local variables their values does not end the function. -/
theorem tame_initialValues {vs : List (VarDef Ty)} {init : List Instr}
    (h : initialValues vs = .ok init) : ∀ d ∈ data (lines init), Tame [] d :=
  tame_lines (initialValues_isFlat h) []

/-- A function that is sure to return never comes to what follows its statements. -/
theorem not_getsTo_of_isFunction {f : FuncDef Ty} {g : Func} (hg : IsFunction f g) {returns : Ty}
    (hannotated : AllAnnotated returns f.stmts) (hsure : guarantee f.stmts ≠ .none)
    {args : List Int32} {a : Activation} (ha : g.activate? args = some a) {m : Module} {limit : Nat}
    {s t : State} (hs : s.current = a) :
    ¬ State.GetsTo m limit s.callers [.seq (data (lines [.const 0, .ret]))] s t := by
  obtain ⟨init, code, next, hinit, hcode, hbody⟩ := hg.body
  have hendless : Endless (data (lines init ++ code)) := by
    rw [data_append]
    exact .append_left (tame_initialValues hinit) (endless_stmts f.stmts hannotated hsure hcode)
  have htodo : s.current.todo =
      [.seq (data (lines init ++ code) ++ data (lines [.const 0, .ret]))] := by
    obtain ⟨table, -, rfl⟩ := Option.map_eq_some_iff.mp ha
    rw [hs, ← data_append, ← hbody]
  exact neverEnds_of_endless hendless m limit _ [] s t List.not_mem_nil htodo

end Code

/-- **The return guarantee is sound.** No program is refused because a function is sure to return
something else than it declares. In a checked function every statement and every list of statements
is sure to return nothing or what the function declares; if it is sure to return something, its code
never runs off its end; and in a function that returns a number or a truth value no call, whatever
its arguments and the globals are, comes to the code behind the statements. -/
theorem guarantee_sound {α : Type} (p : Program α) :
    (∀ e, p.check = .error e → e.what.isReturnMismatch = false) ∧
    ∀ q, p.check = .ok q → ∀ f ∈ q.functions,
      f.bodyInfo.ann = guarantee f.stmts ∧
      (∀ s ∈ innerAll f.stmts, (s.info.ann = .none ∨ s.info.ann = f.returns) ∧
        (s.info.ann ≠ .none → ∀ locals label code next,
          Code.stmt locals label s = .ok (code, next) → Code.NeverEnds (data code))) ∧
      (∀ body ∈ f.bodies, (guarantee body = .none ∨ guarantee body = f.returns) ∧
        (guarantee body ≠ .none → ∀ locals label code next,
          Code.stmts locals label body = .ok (code, next) → Code.NeverEnds (data code))) ∧
      (f.returns = .int ∨ f.returns = .bool → ∀ g args a, Code.IsFunction f g →
        g.activate? args = some a → ∀ m limit globals steps out callers t,
          ¬ State.GetsTo m limit callers [.seq (data (Code.lines [.const 0, .ret]))]
            ⟨globals, steps, out, a, callers⟩ t) := by
  refine ⟨check_agrees p, ?_⟩
  intro q h f hf
  obtain ⟨-, -, hfunctions, -⟩ := check_eq_ok_iff.mp h
  obtain ⟨hannotated, hbody, hsure⟩ := Typing.forall_mem_of_map_eq_ok hfunctions
    (fun _ _ _ => Typing.annotated_of_checkFuncDef) f hf
  refine ⟨hbody, ?_, ?_, ?_⟩
  · intro s hs
    have hs' := annotated_innerAll hannotated s hs
    refine ⟨hs'.ann_cases, fun hann locals label code next hcode => ?_⟩
    exact Code.neverEnds_of_endless (Code.endless_stmt s hs' hann hcode)
  · intro body hmem
    have hbody' := annotated_bodies hannotated body hmem
    refine ⟨hbody'.guarantee_cases, fun hsome locals label code next hcode => ?_⟩
    exact Code.neverEnds_of_endless (Code.endless_stmts body hbody' hsome hcode)
  · intro hreturns g args a hg ha m limit globals steps out callers t
    refine Code.not_getsTo_of_isFunction (s := ⟨globals, steps, out, a, callers⟩) hg
      hannotated ?_ ha
      rfl
    rw [hsure]
    rcases hreturns with hreturns | hreturns <;> rw [hreturns] <;> nofun

/-- A function whose conditional returns in all of its arms, with a loop before it and a statement
behind it that is never reached. -/
def stepProgram : Program Unit where
  functions := [{
    pos := .unknown, name := "step", params := [⟨nowhere, "x", .int⟩], returns := .bool,
    bodyInfo := nowhere, locals := [],
    stmts := [
      .while_ nowhere (.literal nowhere .false) [.ret nowhere (some (.literal nowhere .true))],
      .cond nowhere
        (some (.binary nowhere .less (.ident nowhere "x") (.literal nowhere (.number 0))))
        [.ret nowhere (some (.literal nowhere .false)), .pass nowhere]
        (some (.cond nowhere none [.ret nowhere (some (.literal nowhere .true))] none)),
      .assign nowhere "x" (.literal nowhere (.number 1))] }]
  globals := []
  stmts := []
where
  nowhere : Info Unit := ⟨(), .unknown⟩

/-- What follows the conditional that is sure to return is never reached. -/
theorem guarantee_sound_stepProgram :
    ∃ q f, stepProgram.check = .ok q ∧ q.functions = [f] ∧
      f.stmts.map (fun s => s.info.ann) = [.none, .bool, .none] ∧ guarantee f.stmts = .bool ∧
      ∀ code next, Code.stmts ["x"] 1 f.stmts = .ok (code, next) → Code.NeverEnds (data code) := by
  have hchecked : stepProgram.check.toOption.map
      (fun q => q.functions.map fun f => (f.stmts.map (fun s => s.info.ann), guarantee f.stmts)) =
        some [([.none, .bool, .none], .bool)] := by
    decide +kernel
  obtain ⟨q, hq, hanns⟩ := toOption_map_eq_some.mp hchecked
  obtain ⟨f, hf, hann⟩ := List.map_eq_singleton_iff.mp hanns
  obtain ⟨hann, hsure⟩ := Prod.mk.inj hann
  have hmem : f ∈ q.functions := by
    rw [hf]
    exact List.mem_singleton_self f
  obtain ⟨-, -, hbodies, -⟩ := (guarantee_sound stepProgram).2 q hq f hmem
  have hsome : guarantee f.stmts ≠ .none := by
    rw [hsure]
    nofun
  exact ⟨q, f, hq, hf, hann, hsure,
    (hbodies f.stmts List.mem_cons_self).2 hsome (["x"] : List Text) 1⟩

end WatCompiler
