import WatCompiler.Module.Validation
import WatCompiler.Proofs.Datum.WellFormed

/-!
# What validation says about an instruction

`Runs m f labels count code final` says that `code` has been found valid in the function `f`, where
branches go to `labels`, when it starts with `count` operands of its own; if it reaches its end it
leaves `final` of them. What that means for the first instruction is said once, for every
instruction, by `Runs.next`; nothing after it looks at the validation itself.
-/

namespace WatCompiler.Validation

variable {m : Module} {f : Func}

theorem pop_eq_ok {count n : Nat} {d : Datum} {h : Height} :
    Height.pop ⟨count, false⟩ n d = .ok h ↔ n ≤ count ∧ h = ⟨count - n, false⟩ := by
  unfold Height.pop
  split
  · next hn => exact ⟨fun e => by cases e; exact ⟨hn, rfl⟩, fun ⟨_, e⟩ => by rw [e]⟩
  · next hn => exact ⟨fun e => (nomatch e), fun ⟨e, _⟩ => absurd e hn⟩

/-- Valid code in a function. -/
structure Runs (m : Module) (f : Func) (labels : List Text) (count : Nat) (code : List Datum)
    (final : Nat) : Prop where
  wellFormed : ∀ d ∈ code, d.WellFormed
  valid : ∃ scope h, (∀ label, hasLabel scope label = true → label ∈ labels) ∧
    seq m f scope ⟨count, false⟩ code = .ok h ∧ h.endsWith final = true

/-- A label that a branch can go to. -/
def IsTarget (labels : List Text) (label : Text) : Prop := label ≠ [] ∧ label ∈ labels

/-- What valid code that starts with a given instruction promises: the operands that the instruction
takes are there, its parts are valid, and so is what follows, unless the instruction never goes on
to it. -/
def Continues (m : Module) (f : Func) (labels : List Text) (count : Nat) (code : List Datum)
    (final : Nat) : Instr → Prop
  | .const _ | .localGet _ | .globalGet _ => Runs m f labels (count + 1) code final
  | .localSet _ | .globalSet _ => 1 ≤ count ∧ Runs m f labels (count - 1) code final
  | .call name => ∃ params results, m.signature? name = some (params, results) ∧
    params ≤ count ∧ Runs m f labels (count - params + results) code final
  | .ret => f.results ≤ count
  | .br label => IsTarget labels label
  | .brIf label => IsTarget labels label ∧ 1 ≤ count ∧ Runs m f labels (count - 1) code final
  | .block label body | .loop label body => ∃ name, label = some (.symbol name) ∧ name ≠ [] ∧
    Runs m f (name :: labels) 0 body 0 ∧ Runs m f labels count code final
  | .cond arms => 1 ≤ count ∧
    (∀ arm ∈ arms, ∃ word body, arm.items = word :: body ∧ Runs m f labels 0 body 0) ∧
    Runs m f labels (count - 1) code final
  | .arith _ => 2 ≤ count ∧ Runs m f labels (count - 2 + 1) code final
  | .badConst _ | .unknown _ => False

theorem isTarget_of_hasLabel {scope labels : List Text} {label : Text}
    (hs : ∀ label, hasLabel scope label = true → label ∈ labels)
    (h : hasLabel scope label = true) : IsTarget labels label := by
  refine ⟨?_, hs label h⟩
  rintro rfl
  cases h

/-- The body of a block, a loop or an arm is valid by itself. -/
theorem runs_of_nested {scope labels : List Text} {label : Text} {body : List Datum}
    (hwf : ∀ d ∈ body, d.WellFormed)
    (hs : ∀ name, hasLabel (label :: scope) name = true → name ∈ labels)
    (h : nested m f scope label body = .ok ()) : Runs m f labels 0 body 0 := by
  rw [nested] at h
  obtain ⟨h', hseq, hend⟩ := bind_eq_ok.mp h
  split at hend
  · next he => exact ⟨hwf, label :: scope, h', hs, hseq, he⟩
  · cases hend

theorem mem_cons_of_hasLabel_cons {scope labels : List Text} {label : Text}
    (hs : ∀ name, hasLabel scope name = true → name ∈ labels) :
    ∀ name, hasLabel (label :: scope) name = true → name ∈ label :: labels := by
  intro name hname
  simp only [hasLabel, List.contains_cons, Bool.and_eq_true, Bool.or_eq_true] at hname
  rcases hname.2 with he | he
  · exact List.mem_cons.mpr (Or.inl (by simpa using he))
  · exact List.mem_cons_of_mem _ (hs name (by simp only [hasLabel, hname.1, he, Bool.and_self]))

/-- Arms have no label, so that the labels inside are those around the conditional. -/
theorem mem_of_hasLabel_nil_cons {scope labels : List Text}
    (hs : ∀ name, hasLabel scope name = true → name ∈ labels) :
    ∀ name, hasLabel ([] :: scope) name = true → name ∈ labels := by
  intro name hname
  rcases List.mem_cons.mp (mem_cons_of_hasLabel_cons hs name hname) with rfl | he
  · cases hname
  · exact he

theorem runs_of_conditional {scope labels heads : List Text} {whole : Datum} {arms : List Datum}
    (hwf : ∀ d ∈ arms, d.WellFormed)
    (hs : ∀ name, hasLabel scope name = true → name ∈ labels)
    (h : conditional m f scope whole heads arms = .ok ()) :
    ∀ arm ∈ arms, ∃ word body, arm.items = word :: body ∧ Runs m f labels 0 body 0 := by
  induction arms generalizing heads with
  | nil => intro arm harm; cases harm
  | cons first rest ih =>
    obtain ⟨hfirst, hrest⟩ := List.forall_mem_cons.mp hwf
    cases heads with
    | nil =>
      rw [conditional] at h
      cases h
    | cons expected heads =>
      rw [conditional] at h
      split at h
      · next hd =>
        obtain ⟨⟨⟩, hn, hc⟩ := bind_eq_ok.mp h
        refine List.forall_mem_cons.mpr ⟨?_, ih hrest hc⟩
        -- the arm has a head, so it has items
        cases hitems : first.items with
        | nil =>
          exfalso
          have hhead : first.head = [] := by
            cases first with
            | list items tags =>
              rw [show items = [] from hitems]
              rfl
            | _ => rfl
          exact hd.2 (hd.1 ▸ hhead)
        | cons word body =>
          rw [hitems] at hn
          refine ⟨word, body, rfl, runs_of_nested ?_ (mem_of_hasLabel_nil_cons hs) hn⟩
          intro d hmem
          exact hfirst.items d (by rw [hitems]; exact List.mem_cons_of_mem _ hmem)
      · cases h

/-- What valid code promises about its first instruction. -/
theorem Runs.next {labels : List Text} {count final : Nat} {d : Datum} {code : List Datum}
    (h : Runs m f labels count (d :: code) final) :
    Continues m f labels count code final d.instr := by
  obtain ⟨hd, hcode⟩ := List.forall_mem_cons.mp h.wellFormed
  obtain ⟨scope, hEnd, hs, hseq, hfinal⟩ := h.valid
  rw [seq] at hseq
  obtain ⟨hNext, hinstr, hrest⟩ := bind_eq_ok.mp hseq
  have hgo : ∀ n, hNext = ⟨n, false⟩ → Runs m f labels n code final := by
    rintro n rfl
    exact ⟨hcode, scope, hEnd, hs, hrest, hfinal⟩
  rw [instr] at hinstr
  split at hinstr
  · next hi => rw [hi]; cases hinstr; exact hgo _ rfl
  · cases hinstr
  · next hi =>
    rw [hi]
    split at hinstr
    · cases hinstr; exact hgo _ rfl
    · cases hinstr
  · next hi =>
    rw [hi]
    split at hinstr
    · obtain ⟨hc, e⟩ := pop_eq_ok.mp hinstr
      exact ⟨hc, hgo _ e⟩
    · cases hinstr
  · next hi =>
    rw [hi]
    split at hinstr
    · cases hinstr; exact hgo _ rfl
    · cases hinstr
  · next hi =>
    rw [hi]
    split at hinstr
    · obtain ⟨hc, e⟩ := pop_eq_ok.mp hinstr
      exact ⟨hc, hgo _ e⟩
    · cases hinstr
  · next name hi =>
    rw [hi]
    split at hinstr
    · cases hinstr
    · next params results hsig =>
      obtain ⟨h', hpop, hpush⟩ := bind_eq_ok.mp hinstr
      obtain ⟨hc, rfl⟩ := pop_eq_ok.mp hpop
      cases hpush
      exact ⟨params, results, hsig, hc, hgo _ rfl⟩
  · next hi =>
    rw [hi]
    obtain ⟨h', hpop, -⟩ := bind_eq_ok.mp hinstr
    exact (pop_eq_ok.mp hpop).1
  · next hi =>
    rw [hi]
    split at hinstr
    · next hl => exact isTarget_of_hasLabel hs hl
    · cases hinstr
  · next hi =>
    rw [hi]
    split at hinstr
    · next hl =>
      obtain ⟨hc, e⟩ := pop_eq_ok.mp hinstr
      exact ⟨isTarget_of_hasLabel hs hl, hc, hgo _ e⟩
    · cases hinstr
  · next label body hi =>
    rw [hi]
    obtain ⟨hlabel, hbody⟩ := Datum.body_of_instr_block hi
    split at hinstr
    · next name hi =>
      obtain ⟨⟨⟩, hn, e⟩ := bind_eq_ok.mp hinstr
      cases e
      have hname : (Datum.symbol name).WellFormed := hd.items _ (List.mem_of_getElem? hlabel.symm)
      refine ⟨name, rfl, Datum.ne_nil_of_isSymbol hname, ?_, hgo _ rfl⟩
      refine runs_of_nested ?_ (mem_cons_of_hasLabel_cons hs) hn
      intro x hx
      exact hd.items x (List.mem_of_mem_drop (hbody ▸ hx))
    · cases hinstr
  · next label body hi =>
    rw [hi]
    obtain ⟨hlabel, hbody⟩ := Datum.body_of_instr_loop hi
    split at hinstr
    · next name hi =>
      obtain ⟨⟨⟩, hn, e⟩ := bind_eq_ok.mp hinstr
      cases e
      have hname : (Datum.symbol name).WellFormed := hd.items _ (List.mem_of_getElem? hlabel.symm)
      refine ⟨name, rfl, Datum.ne_nil_of_isSymbol hname, ?_, hgo _ rfl⟩
      refine runs_of_nested ?_ (mem_cons_of_hasLabel_cons hs) hn
      intro x hx
      exact hd.items x (List.mem_of_mem_drop (hbody ▸ hx))
    · cases hinstr
  · next arms hi =>
    rw [hi]
    obtain ⟨h', hpop, hc⟩ := bind_eq_ok.mp hinstr
    obtain ⟨hcount, rfl⟩ := pop_eq_ok.mp hpop
    obtain ⟨⟨⟩, harms, e⟩ := bind_eq_ok.mp hc
    cases e
    refine ⟨hcount, runs_of_conditional ?_ hs harms, hgo _ rfl⟩
    intro x hx
    exact hd.items x (List.mem_of_mem_drop (Datum.arms_of_instr_cond hi ▸ hx))
  · next hi =>
    rw [hi]
    obtain ⟨h', hpop, hpush⟩ := bind_eq_ok.mp hinstr
    obtain ⟨hcount, rfl⟩ := pop_eq_ok.mp hpop
    cases hpush
    exact ⟨hcount, hgo _ rfl⟩
  · cases hinstr

/-- At the end of valid code there are as many operands as it promised. -/
theorem Runs.end_eq {labels : List Text} {count final : Nat} (h : Runs m f labels count [] final) :
    count = final := by
  obtain ⟨scope, hEnd, -, hseq, hfinal⟩ := h.valid
  rw [seq] at hseq
  cases hseq
  simpa [Height.endsWith] using hfinal

end WatCompiler.Validation
