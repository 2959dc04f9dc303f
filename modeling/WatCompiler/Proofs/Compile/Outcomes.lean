import WatCompiler.Proofs.Program.ReadProgram
import WatCompiler.Proofs.Typing.Places
import WatCompiler.Proofs.Wat.Total

/-!
# What comes of compiling a source

Compiling a source gives a module exactly if the source passes the check of its types; otherwise
both give the same fault, of the grammar, of the form or of the types, and it stands at a place in
the source (`compile_outcome`). Code is never missing: what is read is a proper program, checking
keeps it proper, and a proper well-typed program has code.
-/

namespace WatCompiler

/-- A source that passes the check has a proper well-typed program; otherwise there is a fault in
the source. -/
theorem checkSource_outcome (source : Text) :
    (∃ p, checkSource source = .ok p ∧ p.Proper (Position.IsIn source) ∧ p.WellTyped) ∨
      ∃ r, checkSource source = .error r ∧ (r.errorClass = .parse ∨ r.errorClass = .type) ∧
        r.pos.IsIn source := by
  unfold checkSource
  cases hparse : parseProgram source with
  | error r =>
    obtain ⟨hclass, hplace⟩ := isIn_of_parseProgram hparse
    exact Or.inr ⟨r, rfl, Or.inl hclass, hplace⟩
  | ok p =>
    obtain ⟨_, _, _, _, _, _, hitems⟩ := itemsFrom_of_parseProgram hparse
    have hanswers := check_answers hitems.proper
    cases hcheck : p.check with
    | error e =>
      refine Or.inr ⟨.typing e, ?_, Or.inr rfl, hanswers.of_eq_error hcheck⟩
      show p.check.mapError Rejection.typing = _
      rw [hcheck]
      rfl
    | ok q =>
      refine Or.inl ⟨q, ?_, hanswers.of_eq_ok hcheck, (wellTyped_of_check hcheck).1⟩
      show p.check.mapError Rejection.typing = _
      rw [hcheck]
      rfl

/-- **Compiling fails only with faults of the source.** A source that passes the check has a module.
Any other source is refused by the check and by the compiler for the same reason, a fault of the
grammar or of the types, never of the code, whose position is that of an offset in the source. -/
theorem compile_outcome (source : Text) :
    (∃ p wat, checkSource source = .ok p ∧ compile source = .ok wat) ∨
      ∃ r, checkSource source = .error r ∧ compile source = .error r ∧
        (r.errorClass = .parse ∨ r.errorClass = .type) ∧ r.pos.isKnown = true ∧
        ∃ offset ≤ source.length, r.pos = (LineIndex.ofText source).position offset := by
  rcases checkSource_outcome source with ⟨p, hcheck, hproper, htyped⟩ | ⟨r, hcheck, hclass, hplace⟩
  · obtain ⟨wat, hwat⟩ := exists_toWat hproper htyped
    refine Or.inl ⟨p, wat, hcheck, bind_eq_ok.mpr ⟨p, hcheck, ?_⟩⟩
    rw [hwat]
    rfl
  · refine Or.inr ⟨r, hcheck, ?_, hclass, hplace.isKnown, hplace⟩
    rw [compile, hcheck]
    rfl

end WatCompiler
