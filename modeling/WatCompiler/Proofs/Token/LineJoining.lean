import WatCompiler.Proofs.Token.Lookahead

/-!
# Lines that are joined by brackets

Inside brackets a line feed is a blank. A space in its place gives the same tokens, at the same
offsets (`tokenize_set_space`), unless the line feed ends a comment, which would go on then.

The two runs are the same as far as the step before the line feed, since a token that ends at a line
feed ends at a space as well. Both bytes are then passed over within the line: inside brackets the
lexer is never at the start of a line (`depth_eq_zero_of_reaches`), where it would measure a margin.
-/

namespace WatCompiler

open Token (InComment)

variable {source : Text} {ts : List Token}

/-- The byte comes right behind a comment. -/
def Token.EndsComment (source : Text) (ts : List Token) (i : Nat) : Prop :=
  ∃ j, i = j + 1 ∧ InComment source ts j

namespace Lexer

open Token (EndsComment)

variable {l m next l' : Lexer} {passed last rest : Text} {found : List Token} {c : UInt8}
  {after : Text}

/-- The lexer comes to a line feed inside brackets, between two tokens. -/
def MeetsInside (source : Text) (i : Nat) : Prop :=
  ∃ l, Reaches (start source) l ∧ l.offset = i ∧ l.rest.head? = some Text.newline ∧ 0 < l.depth

/-! ## Line starts and brackets -/

theorem Begins.depth_eq (h : Begins l rest passed found next) : next.depth = l.depth := by
  cases h <;> rfl

/-- From the start of a line the lexer comes to no line feed within one. -/
theorem Begins.atLineStart (h : Begins l rest passed found next) (hl : l.atLineStart = true)
    (hrest : rest.head? = some Text.newline) : next.atLineStart = true := by
  cases h with
  | margin _ hnil =>
    subst hnil
    cases hrest
  | skipped => exact hl
  | opens _ hfirst | closes _ hfirst =>
    obtain ⟨c, hc, -, hskipped⟩ := hfirst
    rw [hrest] at hc
    cases hc
    exact absurd hskipped (by decide)

theorem depth_eq_zero_of_step (hr : l.rest = c :: after) (hstep : l.step c = .ok (found, next))
    (hl : l.atLineStart = true → l.depth = 0) (hnext : next.atLineStart = true) :
    next.depth = 0 := by
  obtain ⟨passed, -, ⟨hstart, hbegins⟩ | ⟨hwithin, hadvances⟩⟩ := exists_passed_of_step hr hstep
  · rw [hbegins.depth_eq]
    exact hl hstart
  · exact (hadvances.of_atLineStart hwithin hnext).1

/-- **No line starts inside brackets.** -/
theorem depth_eq_zero_of_reaches (h : Reaches l l') (hl : l.atLineStart = true → l.depth = 0)
    (hl' : l'.atLineStart = true) : l'.depth = 0 := by
  induction h with
  | refl l => exact hl hl'
  | step hr hstep _ ih => exact ih (depth_eq_zero_of_step hr hstep hl) hl'

/-! ## Comments -/

/-- A step over a `#` goes over a comment, and finds nothing. -/
theorem Advances.of_mark (h : Advances l rest passed found next)
    (hmark : passed.head? = some (Text.byte '#')) :
    found = [] ∧ Text.newline ∉ passed ∧ next.offset = l.offset + passed.length := by
  cases h with
  | blank hblank =>
    cases hmark
    exact absurd hblank (by decide)
  | inside | lineEnd | continuation => exact absurd hmark (by decide)
  | comment hbody _ =>
    refine ⟨rfl, fun hmem => ?_, rfl⟩
    rcases List.mem_cons.mp hmem with heq | hmem
    · exact absurd heq (by decide)
    · exact hbody hmem
  | lexeme hx _ =>
    obtain ⟨c, more, htext, -, hskipped⟩ := hx.exists_eq_cons
    rw [htext] at hmark
    cases hmark
    exact absurd hskipped (by decide)

/-- What comes behind a comment. -/
theorem endsComment_of_mark (hvisit : Visit source ts m found l) (hm : m.rest = last ++ l.rest)
    (h : Advances m l.rest last found l) (hmark : last.head? = some (Text.byte '#')) :
    EndsComment source ts l.offset := by
  obtain ⟨rfl, hnewline, hoffset⟩ := h.of_mark hmark
  obtain ⟨body, rfl⟩ := List.head?_eq_some_iff.mp hmark
  have hget := hvisit.visited.follows.getElem?
  rw [List.length_cons] at hoffset
  refine ⟨m.offset + body.length, by omega, m.offset, Nat.le_add_right _ _, ?_, ?_, ?_⟩
  · rw [← Nat.add_zero m.offset, hget, hm]
    rfl
  · intro t ht htakes
    exact List.not_mem_nil (hvisit.only t ht m.offset htakes (Nat.le_refl _) (by omega))
  · intro k hle hk hline
    obtain ⟨d, rfl⟩ := Nat.exists_eq_add_of_le hle
    rw [hget, hm, List.getElem?_append_left (by rw [List.length_cons]; omega)] at hline
    exact hnewline (List.mem_of_getElem? hline)

/-! ## A space for a line feed -/

theorem run_set_space (hr : l.rest = Text.newline :: after) (hdepth : 0 < l.depth)
    (hl : l.atLineStart = false) : (l.withRest (Text.byte ' ' :: after)).run = l.run := by
  have hnewline : l.step Text.newline = .ok ([], l.behind [Text.newline] after) :=
    (Advances.inside hdepth).step hl hr rfl
  have hspace : (l.withRest (Text.byte ' ' :: after)).step (Text.byte ' ') =
      .ok ([], (l.withRest (Text.byte ' ' :: after)).behind [Text.byte ' '] after) :=
    (Advances.blank (by decide)).step hl rfl rfl
  rw [run_of_nothing hr hnewline, run_of_nothing rfl hspace]
  rfl

end Lexer

open Lexer (MeetsInside)
open Token (EndsComment)

/-- **Brackets join lines.** A line feed inside brackets can be replaced by a space. -/
theorem tokenize_set_space {i : Nat} (h : tokenize source = .ok ts) (hi : MeetsInside source i)
    (hcomment : ¬ EndsComment source ts i) :
    tokenize (source.set i (Text.byte ' ')) = .ok ts := by
  obtain ⟨l, hreaches, rfl, hhead, hdepth⟩ := hi
  obtain ⟨after, hr⟩ := List.head?_eq_some_iff.mp hhead
  have hl : l.atLineStart ≠ true := by
    intro hstart
    have := Lexer.depth_eq_zero_of_reaches hreaches (fun _ => rfl) hstart
    omega
  rcases hreaches.eq_or_last with rfl | ⟨m, c, more, found, hm, hmr, hstep⟩
  · exact absurd hdepth (Nat.lt_irrefl 0)
  have hvisit := ((Lexer.visited_start h).of_reaches hm).visit_of_step hmr hstep
  -- The step before the line feed can be taken before a space.
  obtain ⟨last, hlast, ⟨hstart, hbegins⟩ | ⟨hwithin, hadvances⟩⟩ :=
    Lexer.exists_passed_of_step hmr hstep
  · exact absurd (hbegins.atLineStart hstart hhead) hl
  have hc := hadvances.head?_eq hmr hlast
  have hother := (hadvances.withRest (fun kind _ => Source.stops_separator (by decide) kind after)
    (fun hmark => absurd (Lexer.endsComment_of_mark hvisit hlast hadvances hmark) hcomment)
    (last ++ Text.byte ' ' :: after)).step hwithin rfl hc
  obtain ⟨passed, before, hpassed, hrun, hspace⟩ := hm.run_withRest_last hlast hc hstep hother
  rw [Lexer.run_set_space hr hdepth (Bool.eq_false_iff.mpr hl), ← hrun] at hspace
  have hset : source.set l.offset (Text.byte ' ') = passed ++ Text.byte ' ' :: after := by
    have hsource : source = passed ++ l.rest := hpassed
    have hlength := hvisit.visitedNext.follows.length
    rw [hsource, List.length_append] at hlength
    have hoffset : l.offset = passed.length := by omega
    rw [hsource, hr, hoffset, List.set_append_right _ _ (Nat.le_refl _), Nat.sub_self]
    rfl
  rw [hset]
  exact mapError_eq_ok.mpr (hspace.trans (mapError_eq_ok.mp h))

/-- A comment and a line feed, both inside brackets. -/
def bracketSource : Text := "f(#a\n1\n)\n"

theorem tokenize_set_space_bracketSource :
    ∃ ts, tokenize bracketSource = .ok ts ∧ MeetsInside bracketSource 6 ∧
      ¬ EndsComment bracketSource ts 6 ∧
      tokenize (bracketSource.set 6 (Text.byte ' ')) = .ok ts := by
  have hlength : (tokenize bracketSource).toOption.map List.length = some 6 := by decide +kernel
  obtain ⟨ts, hts, -⟩ := toOption_map_eq_some.mp hlength
  have hmeets : MeetsInside bracketSource 6 :=
    Lexer.exists_reaches_of_after? 6 (by decide +kernel)
  have hcomment : ¬ EndsComment bracketSource ts 6 := by
    -- The comment ends with the first of the three lines.
    rintro ⟨j, hj, k, hk, hmark, -, hline⟩
    have hfar : k ≤ 4 := by
      by_contra hlt
      have hfive : k = 5 := by omega
      rw [hfive] at hmark
      exact absurd hmark (by decide)
    exact hline 4 hfar (by omega) (by decide)
  exact ⟨ts, hts, hmeets, hcomment, tokenize_set_space hts hmeets hcomment⟩

end WatCompiler
