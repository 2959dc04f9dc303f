import WatCompiler.Proofs.Token.Steps

/-!
# Tokens stand in their source

The spelling of every token is the stretch of the source that it takes, and it is one that tokens of
its sort have: a name is a letter or underscore, then letters, underscores and digits, and no
keyword (`standsIn_of_tokenize`). The stretches follow each other, and only the last token ends the
input (`inOrder_of_tokenize`, `eq_nil_of_endOfInput`). Where the lexer fails it fails at a place in
the source (`offset_le_of_run`).

All of this is kept by one step of the lexer (`finds_of_step`).
-/

namespace WatCompiler

namespace Lexer

open Token (Kind StandsIn InOrder isIdentifier isNumeral)

variable {source : Text} {l l' next : Lexer} {found : List Token} {passed rest : Text} {c : UInt8}
  {after : Text}

/-- The lexer has come as far as its offset says. -/
structure Follows (source : Text) (l : Lexer) : Prop where
  rest : l.rest = source.drop l.offset
  offset_le : l.offset ≤ source.length

theorem Follows.length (h : Follows source l) : l.offset + l.rest.length = source.length := by
  have := h.offset_le
  rw [h.rest, List.length_drop]
  omega

/-- A lexer that passes over bytes still follows the source. -/
theorem Follows.behind (h : Follows source l) (hr : l.rest = passed ++ rest) :
    Follows source (l.behind passed rest) := by
  refine ⟨?_, ?_⟩
  · show rest = source.drop (l.offset + passed.length)
    rw [← List.drop_drop, ← h.rest, hr, List.drop_left]
  · show l.offset + passed.length ≤ source.length
    rw [← h.length, hr, List.length_append]
    omega

/-- A token that takes what is passed over. -/
theorem Follows.standsIn (h : Follows source l) (hr : l.rest = passed ++ rest) {kind : Kind}
    (hspells : kind.Spells passed) :
    StandsIn source ⟨kind, passed, l.offset, l.offset + passed.length⟩ := by
  refine ⟨?_, hspells, h.offset_le⟩
  show passed = (source.drop l.offset).take (l.offset + passed.length - l.offset)
  rw [Nat.add_sub_cancel_left, ← h.rest, hr, List.take_left]

/-- A token without a length. -/
theorem Follows.standsIn_nil (h : Follows source l) {kind : Kind} (hspells : kind.Spells []) :
    StandsIn source ⟨kind, [], l.offset, l.offset⟩ :=
  h.standsIn (List.nil_append l.rest).symm hspells

/-- What a step from `l` yields. -/
structure Finds (source : Text) (l : Lexer) (found : List Token) (l' : Lexer) : Prop where
  stands : ∀ t ∈ found, StandsIn source t
  inOrder : InOrder l.offset found l'.offset
  goesOn : ∀ t ∈ found, t.kind ≠ .endOfInput
  follows : Follows source l'

theorem Finds.nothing (hr : l.rest = passed ++ rest) (h : Follows source l) :
    Finds source l [] (l.behind passed rest) :=
  ⟨List.forall_mem_nil _, Nat.le_add_right _ _, List.forall_mem_nil _, h.behind hr⟩

/-- One token takes all that is passed over. -/
theorem Finds.single (hr : l.rest = passed ++ rest) (h : Follows source l) {kind : Kind}
    (hspells : kind.Spells passed) (hkind : kind ≠ .endOfInput) (hrest : next.rest = rest)
    (hoffset : next.offset = l.offset + passed.length) :
    Finds source l [⟨kind, passed, l.offset, l.offset + passed.length⟩] next where
  stands := List.forall_mem_singleton.mpr (h.standsIn hr hspells)
  inOrder := ⟨Nat.le_refl _, Nat.le_add_right _ _, Nat.le_of_eq hoffset.symm⟩
  goesOn := List.forall_mem_singleton.mpr hkind
  follows := by
    obtain ⟨hdrop, hle⟩ := h.behind hr
    exact ⟨by rw [hrest, hoffset]; exact hdrop, hoffset ▸ hle⟩

/-- Tokens at the start of a line are found where they stand. -/
theorem Begins.finds (h : Begins l rest passed found next) (hf : Follows source l)
    (hr : l.rest = passed ++ rest) : Finds source l found next := by
  have hbehind := hf.behind hr
  cases h with
  | margin | skipped => exact .nothing hr hf
  | opens => exact .single hr hf trivial (fun h => by cases h) rfl rfl
  | closes =>
    refine ⟨fun t ht => ?_, ?_, fun t ht => ?_, ⟨hbehind.rest, hbehind.offset_le⟩⟩
    · obtain ⟨_, -, rfl⟩ := List.mem_map.mp ht
      exact hbehind.standsIn_nil trivial
    · -- All of them stand behind the margin.
      refine InOrder.of_le (Nat.le_add_right l.offset passed.length) ?_
      refine Token.inOrder_of_forall fun t ht => ?_
      obtain ⟨_, -, rfl⟩ := List.mem_map.mp ht
      exact ⟨rfl, rfl⟩
    · obtain ⟨_, -, rfl⟩ := List.mem_map.mp ht
      exact fun h => by cases h

theorem spells_of_isLexeme {kind : Kind} {t : Text} (h : Source.IsLexeme kind t) :
    kind.Spells t ∧ kind ≠ .endOfInput := by
  cases h with
  | identifier h | numeral h => exact ⟨h, fun h => by cases h⟩
  | keyword | operator => exact ⟨rfl, fun h => by cases h⟩
  | string hmark => exact ⟨hmark.imp (congrArg some) (congrArg some), fun h => by cases h⟩

/-- Tokens within a line are found where they stand. -/
theorem Advances.finds (h : Advances l rest passed found next) (hf : Follows source l)
    (hr : l.rest = passed ++ rest) : Finds source l found next := by
  have hbehind := hf.behind hr
  cases h with
  | blank | inside | comment | continuation => exact .nothing hr hf
  | lineEnd =>
    split
    · exact ⟨List.forall_mem_nil _, Nat.le_add_right _ _, List.forall_mem_nil _,
        ⟨hbehind.rest, hbehind.offset_le⟩⟩
    · exact .single hr hf trivial (fun h => by cases h) rfl rfl
  | lexeme hx =>
    obtain ⟨hspells, hkind⟩ := spells_of_isLexeme hx
    exact .single hr hf hspells hkind rfl rfl

/-- **One step stays in the source.** -/
theorem finds_of_step (hf : Follows source l) (hr : l.rest = c :: after)
    (hstep : l.step c = .ok (found, next)) : Finds source l found next := by
  obtain ⟨passed, hpassed, ⟨-, hbegins⟩ | ⟨-, hadvances⟩⟩ := exists_passed_of_step hr hstep
  · exact hbegins.finds hf hpassed
  · exact hadvances.finds hf hpassed

/-- A step fails where it starts, or behind a margin. -/
theorem offset_le_of_step {failure : Failure} (h : l.step c = .error failure) :
    failure.offset ≤ l.offset + l.rest.length := by
  have hmargin := (List.takeWhile_prefix (l := l.rest) isMargin).length_le
  have hhere : failure.offset = l.offset → failure.offset ≤ l.offset + l.rest.length := by omega
  unfold step at h
  split at h
  · unfold lineStart indentTo at h
    dsimp only at h
    repeat' split at h
    all_goals cases h
    all_goals exact Nat.add_le_add_left hmargin _
  · refine hhere ?_
    rw [withinLine, number_eq, number.checked, word, string, operator] at h
    dsimp only [take] at h
    repeat' split at h
    all_goals cases h
    all_goals rfl

theorem eq_token_of_mem_lineEnd {n : Nat} {t : Token} (ht : t ∈ l.lineEnd n) :
    t = l.token .newline n := by
  unfold lineEnd at ht
  split at ht
  case h_5 => exact List.mem_singleton.mp ht
  all_goals cases ht

theorem inOrder_lineEnd (l : Lexer) (n : Nat) : InOrder l.offset (l.lineEnd n) (l.offset + n) := by
  unfold lineEnd
  split
  case h_5 => exact ⟨Nat.le_refl _, Nat.le_add_right _ _, Nat.le_refl _⟩
  all_goals exact Nat.le_add_right _ _

/-- What the lexer yields from `l` on: tokens of which the last one ends the input, or a failure at
a place in the source. -/
def Ends (source : Text) (l : Lexer) : Except Failure (List Token) → Prop
  | .ok ts => ∃ front last, ts = front ++ [last] ∧ (∀ t ∈ ts, StandsIn source t) ∧
    InOrder l.offset ts source.length ∧ last.kind = .endOfInput ∧
    ∀ t ∈ front, t.kind ≠ .endOfInput
  | .error failure => failure.offset ≤ source.length

/-- At the end, the open blocks are closed and the end is found. -/
theorem finish_ends (h : Follows source l) (hr : l.rest = []) : Ends source l l.finish := by
  have hlength := h.length
  rw [hr, List.length_nil, Nat.add_zero] at hlength
  unfold finish
  split
  · exact h.offset_le
  · have hfront : ∀ t ∈ l.lineEnd 0 ++ l.indents.map (fun _ => l.token .dedent 0),
        StandsIn source t ∧ t.kind ≠ .endOfInput := by
      intro t ht
      rcases List.mem_append.mp ht with ht | ht
      · rw [eq_token_of_mem_lineEnd ht]
        exact ⟨h.standsIn_nil trivial, nofun⟩
      · obtain ⟨_, -, rfl⟩ := List.mem_map.mp ht
        exact ⟨h.standsIn_nil trivial, nofun⟩
    refine ⟨_, _, rfl, fun t ht => ?_, ?_, rfl, fun t ht => (hfront t ht).2⟩
    · rcases List.mem_append.mp ht with ht | ht
      · exact (hfront t ht).1
      · rw [List.mem_singleton.mp ht]
        exact h.standsIn_nil trivial
    · rw [← hlength, List.append_assoc]
      refine Token.inOrder_append.mpr ⟨l.offset, inOrder_lineEnd l 0, ?_⟩
      refine Token.inOrder_of_forall fun t ht => ?_
      rcases List.mem_append.mp ht with ht | ht
      · obtain ⟨_, -, rfl⟩ := List.mem_map.mp ht
        exact ⟨rfl, rfl⟩
      · rw [List.mem_singleton.mp ht]
        exact ⟨rfl, rfl⟩

/-- Tokens that were found before the rest. -/
theorem Finds.ends {answer : Except Failure (List Token)} (h : Finds source l found l')
    (hrest : Ends source l' answer) : Ends source l (answer.map (found ++ ·)) := by
  cases answer with
  | error failure => exact hrest
  | ok ts =>
    obtain ⟨front, last, rfl, hstands, horder, hlast, hfront⟩ := hrest
    refine ⟨found ++ front, last, (List.append_assoc _ _ _).symm, fun t ht => ?_,
      Token.inOrder_append.mpr ⟨_, h.inOrder, horder⟩, hlast, fun t ht => ?_⟩
    · rcases List.mem_append.mp ht with ht | ht
      · exact h.stands t ht
      · exact hstands t ht
    · rcases List.mem_append.mp ht with ht | ht
      · exact h.goesOn t ht
      · exact hfront t ht

/-- A lexer that follows the source finds its tokens up to the end. -/
theorem run_ends (h : Follows source l) : Ends source l l.run := by
  -- By induction on what every step makes smaller.
  induction hn : l.remaining using Nat.strongRecOn generalizing l with
  | ind n ih =>
    cases hr : l.rest with
    | nil =>
      rw [run_nil hr]
      exact finish_ends h hr
    | cons c after =>
      rw [run_cons hr]
      cases hanswer : l.step c with
      | error failure =>
        show failure.offset ≤ source.length
        rw [← h.length]
        exact offset_le_of_step hanswer
      | ok progress =>
        obtain ⟨found, next⟩ := progress
        have hfinds := finds_of_step h hr hanswer
        exact hfinds.ends (ih _ (hn ▸ step_remaining_lt hanswer hr) hfinds.follows rfl)

theorem start_follows (source : Text) : Follows source (start source) := ⟨rfl, Nat.zero_le _⟩

/-- The lexer fails at a place in the source. -/
theorem offset_le_of_run {failure : Failure} (h : (start source).run = .error failure) :
    failure.offset ≤ source.length := by
  have := run_ends (start_follows source)
  rwa [h] at this

end Lexer

section Tokenize

variable {source : Text} {ts : List Token}

theorem ends_of_tokenize (h : tokenize source = .ok ts) :
    Lexer.Ends source (Lexer.start source) (.ok ts) := by
  rw [← mapError_eq_ok.mp h]
  exact Lexer.run_ends (Lexer.start_follows source)

/-- Every token of a source stands in it. -/
theorem standsIn_of_tokenize (h : tokenize source = .ok ts) :
    ∀ t ∈ ts, Token.StandsIn source t := by
  obtain ⟨-, -, -, hstands, -⟩ := ends_of_tokenize h
  exact hstands

/-- The tokens of a source follow each other. -/
theorem inOrder_of_tokenize (h : tokenize source = .ok ts) :
    Token.InOrder 0 ts source.length := by
  obtain ⟨-, -, -, -, horder, -⟩ := ends_of_tokenize h
  exact horder

/-- Nothing comes after the end of input. -/
theorem eq_nil_of_endOfInput {used rest : List Token} {t : Token}
    (h : tokenize source = .ok (used ++ t :: rest)) (ht : t.kind = .endOfInput) : rest = [] := by
  obtain ⟨front, last, hts, -, -, -, hfront⟩ := ends_of_tokenize h
  rcases List.eq_nil_or_concat rest with hrest | ⟨init, other, rfl⟩
  · exact hrest
  · -- Only the last token ends the input, and `t` stands before it.
    rw [List.concat_eq_append, ← List.cons_append, ← List.append_assoc] at hts
    obtain ⟨rfl, -⟩ := List.append_inj' hts rfl
    exact absurd ht (hfront t (List.mem_append_right _ List.mem_cons_self))

end Tokenize

end WatCompiler
