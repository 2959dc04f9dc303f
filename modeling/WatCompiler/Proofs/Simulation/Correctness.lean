import WatCompiler.Proofs.Simulation.Calls

/-!
# The compiler is correct

A run of a compiled module ends exactly if the program ends, with the same output, the same global
variables and the same trap (`compile_correct`). The machine follows the top-level statements from
its start; whether a run of the program is over is compared with runs of the machine that are
allowed as many moves as the program is allowed calls and rounds.
-/

namespace WatCompiler

open Layout (data)

namespace Code

variable {p : Program Ty} {m : Module}

/-- The frame of the top-level statements. -/
def topLevel (p : Program Ty) (m : Module) : Frame := ⟨p, m, p.scope, [], m.entry, []⟩

theorem topLevel_fits (hm : IsModule p m) (hp : p.Named) : (topLevel p m).Fits where
  isModule := hm
  globals := rfl
  functions := rfl
  locals := (declares_entry hm).own
  named := hp.scope
  returns := nofun

/-- The start of a run. -/
theorem stands_start (hm : IsModule p m) (ht : p.WellTyped) :
    ∃ s, (Machine.ofModule m 0).start? none = some s ∧
      Stands (topLevel p m) [] ⟨p.globals.map fun v => (v.name, v.literal.word), []⟩
        [.seq m.entry.body] [] s := by
  have hnodup : (Validation.declared m.entry).Nodup := by
    rw [Validation.declared, hm.entry.params, hm.entry.locals]
    exact List.nodup_singleton _
  have hactivate := activate?_eq_some (show ([] : List Int32).length = m.entry.params.length by
    rw [hm.entry.params]; rfl) hnodup
  rw [hm.entry.params, hm.entry.locals] at hactivate
  refine ⟨⟨m.globals, 0, .empty none, ⟨m.entry, [(scratch, 0)], .empty, [.seq m.entry.body]⟩, []⟩,
    ?_,
    ⟨?_, rfl⟩, ?_, rfl, rfl, rfl, rfl, ?_, ⟨fun hlocal => (by cases hlocal), fun _ => rfl⟩⟩
  · rw [Machine.start?]
    show Option.map _ (m.entry.activate? []) = _
    rw [hactivate]
    rfl
  · show m.globals = _
    rw [hm.globals, List.map_map]
    rfl
  · intro name type hname
    have hfind := find?_cases_of_forall₂ (aligned_literals ht.literals) name
    rw [show Table.find? (p.globals.map fun v => (v.name, v.type)) name = some type from hname]
      at hfind
    exact hfind
  · intro name hname
    exact if_neg hname.symm

/-- After the last statement the run is over. -/
theorem Stands.finish (hm : IsModule p m) {own : Table Int32} {w : World} {s : State}
    (h : Stands (topLevel p m) own w [.seq []] [] s) :
    ∃ t, State.Reaches m 0 s t ∧ t.step m 0 = .ended t none ∧ Shows w t := by
  obtain ⟨t, hstep, ht⟩ := h.next
  refine ⟨t, ⟨1, .single hstep⟩, ?_, ht.shows⟩
  have hresult : t.current.func.hasResult = false := by
    rw [ht.func]
    exact hm.entry.hasResult
  have hheight : t.current.stack.height = t.current.func.results := by
    rw [ht.height_eq, Func.results, hresult]
    rfl
  rw [State.step, ht.todo]
  show t.fallOff = _
  rw [State.fallOff, if_pos hheight, State.leave, hresult,
    if_neg (by decide), State.giveBack, ht.callers]
  rfl

/-- The machine does what the program does. -/
theorem follows_program (hm : IsModule p m) (ht : p.WellTyped) (hp : p.Named) (n : Nat) {s : State}
    (h : Stands (topLevel p m) [] ⟨p.globals.map fun v => (v.name, v.literal.word), []⟩
      [.seq m.entry.body] [] s) :
    Follows m n (execAll (p.call n) n p.stmts [])
      ⟨p.globals.map fun v => (v.name, v.literal.word), []⟩ s fun _ w t =>
        t.step m 0 = .ended t none ∧ Shows w t := by
  have hfr := topLevel_fits hm hp
  obtain ⟨code, next, hcode, hbody⟩ := hm.entry.body
  rw [hbody, ← List.append_nil (data code)] at h
  refine Follows.advance
    (follows_stmts hfr (callsFollow hm ht hp n hfr rfl rfl) p.stmts ht.body hcode
    (List.forall_mem_nil _) h) ?_
  intro flow w t hflow
  cases flow with
  | next own => exact Stands.finish hm hflow
  | returned v =>
    obtain ⟨caller, callers, hcallers, -⟩ := hflow.1
    cases hcallers

/-- A run of the program that is over says how every run of the machine ends. -/
theorem runFor_of_evaluate (hm : IsModule p m) (ht : p.WellTyped) (hp : p.Named)
    (n : Nat) {s : State}
    (h : Stands (topLevel p m) [] ⟨p.globals.map fun v => (v.name, v.literal.word), []⟩
      [.seq m.entry.body] [] s) :
    match p.evaluate n with
    | none => s.runFor m 0 n = none
    | some (trap, w) =>
      ∃ fuel t, s.runFor m 0 fuel = some (t, trap.map Failure.trap) ∧ Shows w t := by
  have hfollows := follows_program hm ht hp n h
  rw [Follows] at hfollows
  rw [Program.evaluate]
  generalize execAll (p.call n) n p.stmts []
    ⟨p.globals.map fun v => (v.name, v.literal.word), []⟩ = result at hfollows ⊢
  rcases result with _ | ⟨cause | flow, w⟩
  · exact State.runFor_eq_none_iff.mpr hfollows
  · obtain ⟨u, t, ⟨k, hk⟩, hend, hshows⟩ := hfollows
    exact ⟨k + 1, t, State.runFor_eq_some_iff.mpr ⟨k, u, Nat.lt_succ_self k, hk, hend⟩, hshows⟩
  · obtain ⟨t, ⟨k, hk⟩, hend, hshows⟩ := hfollows
    exact ⟨k + 1, t, State.runFor_eq_some_iff.mpr ⟨k, t, Nat.lt_succ_self k, hk, hend⟩, hshows⟩

theorem Shows.text {w : World} {s : State} (h : Shows w s) :
    s.out.text = w.text := by
  rw [h.out, Output.text, List.reverse_reverse]
  rfl

end Code

/-- **Compiled sources run as their programs do.** A run of the module without a step limit, with a
receiver that takes all output, ends exactly if the program ends. It has then printed the same
lines, every global variable has the same value, and it failed with the program's trap or not at
all. -/
theorem compile_correct {source wat : Text} (h : compile source = .ok wat) :
    ∃ p m, checkSource source = .ok p ∧ Module.parse wat = .ok m ∧
      ((∃ fuel r, (Machine.ofModule m 0).run none fuel = some r) ↔
        ∃ n answer, p.evaluate n = some answer) ∧
      ∀ fuel r n trap w, (Machine.ofModule m 0).run none fuel = some r →
        p.evaluate n = some (trap, w) →
        r.printed = w.text ∧
        r.machine.globals = (w.globals.map fun entry => (Code.identifier entry.1, entry.2)) ∧
        r.failure = trap.map Failure.trap := by
  obtain ⟨p, m, hp, hwell, hnamed, hparse, hm⟩ := isModule_of_compile h
  obtain ⟨s, hstart, hstands⟩ := Code.stands_start hm hwell
  have hrun : ∀ fuel, (Machine.ofModule m 0).run none fuel =
      (s.runFor m 0 fuel).map fun ended =>
        ⟨⟨m, ended.1.globals, ended.1.steps, 0⟩, ended.1.out.text, ended.2⟩ := by
    intro fuel
    rw [Machine.run, hstart]
    rfl
  have hevaluate := fun n => Code.runFor_of_evaluate hm hwell hnamed n hstands
  refine ⟨p, m, hp, hparse, ⟨?_, ?_⟩, ?_⟩
  · rintro ⟨fuel, r, hr⟩
    -- With as many calls and rounds as the machine needs moves, the program is over.
    have hfuel := hevaluate fuel
    cases hn : p.evaluate fuel with
    | some answer => exact ⟨fuel, answer, hn⟩
    | none =>
      rw [hn] at hfuel
      rw [hrun, hfuel] at hr
      cases hr
  · rintro ⟨n, ⟨trap, w⟩, hn⟩
    have hover := hevaluate n
    rw [hn] at hover
    obtain ⟨fuel, t, ht, -⟩ := hover
    exact ⟨fuel, _, by rw [hrun, ht]; rfl⟩
  · intro fuel r n trap w hr hn
    have hover := hevaluate n
    rw [hn] at hover
    obtain ⟨fuel', t, ht, hshows⟩ := hover
    rw [hrun, Option.map_eq_some_iff] at hr
    obtain ⟨⟨t', failure⟩, ht', rfl⟩ := hr
    cases State.runFor_unique ht ht'
    exact ⟨hshows.text, hshows.globals, rfl⟩

/-- A loop with a call, and a division by zero after it. -/
def squaresSource : Text :=
  "x:int = 2\ndef f(a:int) -> int:\n  return a * a\nwhile x > 0:\n  print(f(x))\n  x = x - 1\n1 // x\n"

theorem compile_correct_squaresSource :
    ∃ wat m fuel r, compile squaresSource = .ok wat ∧ Module.parse wat = .ok m ∧
      (Machine.ofModule m 0).run none fuel = some r ∧ r.printed = "4\n1\n" ∧
      r.machine.globals = [(Text.ofString "$x", 0)] ∧ r.failure = some (.trap .divideByZero) := by
  have hcompiled : (compile squaresSource).toOption.map (fun _ => ()) = some () := by decide +kernel
  have hprogram : (checkSource squaresSource).toOption.map (fun p => p.evaluate 3) =
      some (some (some .divideByZero, ⟨[(Text.ofString "x", 0)], ["4", "1"]⟩)) := by
    decide +kernel
  obtain ⟨wat, hwat, -⟩ := toOption_map_eq_some.mp hcompiled
  obtain ⟨p, m, hp, hm, hends, hsame⟩ := compile_correct hwat
  rw [hp] at hprogram
  have hover := Option.some.inj hprogram
  obtain ⟨fuel, r, hr⟩ := hends.mpr ⟨3, _, hover⟩
  obtain ⟨hprinted, hglobals, hfailure⟩ := hsame fuel r 3 _ _ hr hover
  exact ⟨wat, m, fuel, r, hwat, hm, hr, hprinted, hglobals, hfailure⟩

end WatCompiler
