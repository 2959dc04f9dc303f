import WatCompiler.Proofs.Token.Ignored

/-!
# How far the lexer looks ahead

What a step does depends on the text that it goes over and on the byte after it, and on nothing that
comes later (`step_withRest`). So the way to a place in a source stays the same when the text behind
that place is replaced by one with the same first byte (`Reaches.run_withRest`). Only the last step
of the way looks at that byte. Where this step does not mind, the byte may be another one, too
(`Reaches.run_withRest_last`).
-/

namespace WatCompiler

namespace Lexer

open Source (Stops)

variable {l m next l' : Lexer} {passed last rest other : Text} {found : List Token} {c : UInt8}
  {after : Text}

/-- The lexer with another text to come. -/
def withRest (l : Lexer) (rest : Text) : Lexer := { l with rest := rest }

/-! ## One step -/

/-- Within a line a step can be taken where nothing continues a token that nothing continued before,
and where a comment ends that ended before. -/
theorem Advances.withRest (h : Advances l rest passed found next)
    (hstops : ∀ kind, Stops kind rest → Stops kind other)
    (hcomment : passed.head? = some (Text.byte '#') → rest.head? = other.head?) (t : Text) :
    Advances (l.withRest t) other passed found (next.withRest other) := by
  cases h with
  | blank hblank => exact .blank hblank
  | inside hdepth => exact .inside hdepth
  | comment hbody hend => exact .comment hbody (hcomment rfl ▸ hend)
  | continuation => exact .continuation
  | lineEnd hdepth => exact .lineEnd hdepth
  | lexeme hx hstop => exact .lexeme hx (hstops _ hstop)

theorem not_newline_mem_of_isMargin {margin : Text} (h : margin.all isMargin = true) :
    Text.newline ∉ margin := fun hmem =>
  absurd (List.all_eq_true.mp h _ hmem) (by decide)

/-- At the start of a line a step can be taken if the next byte is the same, or if the step goes
over the end of the line. -/
theorem Begins.withRest (h : Begins l rest passed found next)
    (hother : rest.head? = other.head? ∨ passed.getLast? = some Text.newline) (t : Text) :
    Begins (l.withRest t) other passed found (next.withRest other) := by
  have hsame : Text.newline ∉ passed → rest.head? = other.head? := fun hpassed =>
    hother.resolve_right fun hlast => hpassed (List.mem_of_getLast? hlast)
  have hnil : rest = [] → Text.newline ∉ passed → other = [] := by
    intro hrest hpassed
    have hhead := hsame hpassed
    rw [hrest] at hhead
    exact List.head?_eq_none_iff.mp hhead.symm
  cases h with
  | margin hmargin hrest =>
    exact .margin hmargin (hnil hrest (not_newline_mem_of_isMargin hmargin))
  | @skipped margin body ending hmargin hbody hend hfirst =>
    refine .skipped hmargin hbody (hend.imp_right fun hsource => ⟨hsource.1, ?_⟩) hfirst
    refine hnil hsource.2 fun hmem => ?_
    rw [hsource.1, List.append_nil] at hmem
    rcases List.mem_append.mp hmem with hmem | hmem
    · exact not_newline_mem_of_isMargin hmargin hmem
    · exact hbody hmem
  | opens hmargin hfirst hwidth hlast =>
    rw [IsVisible, hsame (not_newline_mem_of_isMargin hmargin)] at hfirst
    exact .opens hmargin hfirst hwidth hlast
  | closes hmargin hfirst hwidth hkept =>
    rw [IsVisible, hsame (not_newline_mem_of_isMargin hmargin)] at hfirst
    exact .closes hmargin hfirst hwidth hkept

/-- **A step looks no further than the next byte.** -/
theorem step_withRest (hr : l.rest = c :: after) (hstep : l.step c = .ok (found, next)) :
    ∃ passed, l.rest = passed ++ next.rest ∧ ∀ other, next.rest.head? = other.head? →
      (l.withRest (passed ++ other)).step c = .ok (found, next.withRest other) := by
  obtain ⟨passed, hpassed, ⟨hl, hbegins⟩ | ⟨hl, hadvances⟩⟩ := exists_passed_of_step hr hstep
  · exact ⟨passed, hpassed, fun other hhead =>
      (hbegins.withRest (.inl hhead) (passed ++ other)).step hl rfl c⟩
  · refine ⟨passed, hpassed, fun other hhead => ?_⟩
    have hstops : ∀ kind, Stops kind next.rest → Stops kind other := fun kind hstop d hd =>
      hstop d (hhead ▸ hd)
    exact (hadvances.withRest hstops (fun _ => hhead) (passed ++ other)).step hl rfl
      (hadvances.head?_eq hr hpassed)

/-- Only the end of a line outside of brackets leads to the start of the next one, whatever that
is. -/
theorem Advances.of_atLineStart (h : Advances l rest passed found next) (hl : l.atLineStart = false)
    (hnext : next.atLineStart = true) :
    next.depth = 0 ∧
      ∀ other t, Advances (l.withRest t) other passed found (next.withRest other) := by
  cases h with
  | lineEnd hdepth => exact ⟨hdepth, fun other t => .lineEnd hdepth⟩
  | _ => exact absurd (hl.symm.trans hnext) Bool.false_ne_true

/-! ## The way to a place -/

theorem map_append_append (answer : Except Failure (List Token)) (front back : List Token) :
    (answer.map (back ++ ·)).map (front ++ ·) = answer.map ((front ++ back) ++ ·) := by
  cases answer with
  | error failure => rfl
  | ok ts => exact congrArg Except.ok (List.append_assoc front back ts).symm

theorem head?_append_congr {t u : Text} (front : Text) (h : t.head? = u.head?) :
    (front ++ t).head? = (front ++ u).head? := by
  cases front with
  | nil => exact h
  | cons c front => rfl

/-- **The way to a place** is the same if the next byte is. -/
theorem Reaches.run_withRest (h : Reaches l l') :
    ∃ passed found, l.rest = passed ++ l'.rest ∧ ∀ other, l'.rest.head? = other.head? →
      (l.withRest (passed ++ other)).run = (l'.withRest other).run.map (found ++ ·) := by
  induction h with
  | refl l => exact ⟨[], [], rfl, fun other _ => (congrFun Except.map_id _).symm⟩
  | @step l next l' c after found hr hstep _ ih =>
    obtain ⟨first, hfirst, hlocal⟩ := step_withRest hr hstep
    obtain ⟨passed, more, hpassed, hrun⟩ := ih
    refine ⟨first ++ passed, found ++ more, ?_, fun other hhead => ?_⟩
    · rw [hfirst, hpassed, List.append_assoc]
    · have hnext : next.rest.head? = (passed ++ other).head? := by
        rw [hpassed]
        exact head?_append_congr passed hhead
      have hcons : (first ++ (passed ++ other)).head? = some c := by
        rw [← head?_append_congr first hnext, ← hfirst, hr]
        rfl
      obtain ⟨t, ht⟩ := List.head?_eq_some_iff.mp hcons
      rw [List.append_assoc, run_of_step (l := l.withRest _) ht (hlocal _ hnext), hrun other hhead,
        map_append_append]

/-- A place that is not the first one is reached by a last step. -/
theorem Reaches.eq_or_last (h : Reaches l l') :
    l = l' ∨ ∃ m c after found, Reaches l m ∧ m.rest = c :: after ∧ m.step c = .ok (found, l') := by
  induction h with
  | refl l => exact .inl rfl
  | @step l next l' c after found hr hstep _ ih =>
    rcases ih with rfl | ⟨m, c', after', found', hreaches, hlast⟩
    · exact .inr ⟨l, c, after, found, .refl l, hr, hstep⟩
    · exact .inr ⟨m, c', after', found', .step hr hstep hreaches, hlast⟩

/-- **The last step decides** whether the text behind a place may be replaced. -/
theorem Reaches.run_withRest_last (h : Reaches l m) (hm : m.rest = last ++ l'.rest)
    (hc : last.head? = some c) (hstep : m.step c = .ok (found, l'))
    (hother : (m.withRest (last ++ other)).step c = .ok (found, l'.withRest other)) :
    ∃ passed before, l.rest = passed ++ l'.rest ∧ l.run = l'.run.map (before ++ ·) ∧
      (l.withRest (passed ++ other)).run = (l'.withRest other).run.map (before ++ ·) := by
  obtain ⟨passed, before, hpassed, hrun⟩ := h.run_withRest
  obtain ⟨t, rfl⟩ := List.head?_eq_some_iff.mp hc
  have halone := hrun m.rest rfl
  rw [← hpassed] at halone
  have hreplaced := hrun (c :: t ++ other) (by rw [hm]; rfl)
  have hlast : (m.withRest (c :: t ++ other)).run = _ := run_of_step rfl hother
  refine ⟨passed ++ c :: t, before ++ found, ?_, ?_, ?_⟩
  · rw [hpassed, hm, List.append_assoc]
  · have hfirst : l.run = m.run.map (before ++ ·) := halone
    rw [hfirst, run_of_step hm hstep, map_append_append]
  · rw [List.append_assoc, hreplaced, hlast, map_append_append]

/-- The lexer after `n` steps. -/
def after? (l : Lexer) : Nat → Option Lexer
  | 0 => some l
  | n + 1 => do
    let c ← l.rest.head?
    let (_, next) ← (l.step c).toOption
    next.after? n

/-- A place can be found by taking steps. -/
theorem exists_reaches_of_after? {p : Lexer → Prop} [DecidablePred p] (n : Nat)
    (h : (l.after? n).any (p ·) = true) : ∃ l', Reaches l l' ∧ p l' := by
  induction n generalizing l with
  | zero => exact ⟨l, .refl l, of_decide_eq_true h⟩
  | succ n ih =>
    cases hr : l.rest with
    | nil =>
      rw [after?, hr] at h
      cases h
    | cons c after =>
      rw [after?, hr, List.head?_cons, Option.bind_eq_bind, Option.bind_some] at h
      cases hstep : l.step c with
      | error failure =>
        rw [hstep] at h
        cases h
      | ok answer =>
        rw [hstep] at h
        obtain ⟨l', hreaches, hp⟩ := ih h
        exact ⟨l', .step hr hstep hreaches, hp⟩

end Lexer

end WatCompiler
