import WatCompiler.Proofs.Datum.Spelling

/-!
# The data of two texts, one behind the other

Where a text can be read and another one follows on a new line, the two are read as the data of the
first and then those of the second, and they can be read exactly if the second can
(`parseAll_append_line`).

A line end stops whatever is being cut off: symbols, integers and comments end there, and strings
are closed before it (`scan_line`). So the tokens of the first text are those that it has alone
(`tokensFrom_line`). The reader has no open data behind them (`eq_of_step_endOfInput`), and what it
has finished by then plays no part in what it does next (`steps_onto`).
-/

namespace WatCompiler.Datum

/-! ## A line end behind a text -/

theorem takeWhile_line {p : UInt8 → Bool} (hp : p Text.newline = false) (t more : Text) :
    (t ++ Text.newline :: more).takeWhile p = t.takeWhile p := by
  induction t with
  | nil => exact List.takeWhile_cons_of_neg (Bool.eq_false_iff.mp hp)
  | cons c t ih => rw [List.cons_append, List.takeWhile_cons, List.takeWhile_cons, ih]

theorem isPrefixOf_line {s : Text} (hs : Text.newline ∉ s) (t more : Text) :
    s.isPrefixOf (t ++ Text.newline :: more) = s.isPrefixOf t := by
  induction s generalizing t with
  | nil => rfl
  | cons a s ih =>
    obtain ⟨ha, hs⟩ := not_or.mp (mt List.mem_cons.mpr hs)
    cases t with
    | nil => rw [List.nil_append, List.isPrefixOf_cons_cons, beq_false_of_ne (Ne.symm ha)]; rfl
    | cons c t => rw [List.cons_append, List.isPrefixOf_cons_cons, List.isPrefixOf_cons_cons, ih hs]

theorem startsInteger_line (c : UInt8) (t more : Text) :
    startsInteger c (t ++ Text.newline :: more) = startsInteger c t := by
  cases t with
  | nil => rfl
  | cons d t => rfl

/-- A string ends at its quotation mark, whatever comes after it. -/
theorem scanString_append {distance : Nat} {read t : Text} {lexeme : Lexeme} {length : Nat}
    (h : scanString distance read t = .token lexeme length) (more : Text) :
    scanString distance read (t ++ more) = .token lexeme length := by
  fun_induction scanString distance read t with
  | case1 | case3 | case5 => cases h
  | case2 distance read rest =>
    rw [List.cons_append, scanString_close]
    exact h
  | case4 distance read e rest hescape hquote ih =>
    rw [List.cons_append, List.cons_append, scanString.eq_def]
    exact (if_neg hquote).trans ((if_pos rfl).trans ((if_pos hescape).trans (ih h)))
  | case6 distance read c rest hquote hescape ih =>
    rw [List.cons_append, scanString.eq_def]
    exact (if_neg hquote).trans ((if_neg hescape).trans (ih h))

/-- A string is closed within the text, or there is a fault. -/
theorem scanString_cases (distance : Nat) (read t : Text) :
    (∃ lexeme k, scanString distance read t = .token lexeme (distance + k) ∧ k ≤ t.length) ∨
      ∃ fault place, scanString distance read t = .fault fault place := by
  fun_induction scanString distance read t with
  | case1 | case3 | case5 => exact .inr ⟨_, _, rfl⟩
  | case2 distance read rest => exact .inl ⟨_, 1, rfl, Nat.le_add_left 1 rest.length⟩
  | case4 distance read e rest _ _ ih =>
    refine ih.imp_left ?_
    rintro ⟨lexeme, k, hscan, hk⟩
    refine ⟨lexeme, 2 + k, ?_, ?_⟩
    · rw [hscan, Nat.add_assoc]
    · rw [List.length_cons, List.length_cons]
      omega
  | case6 distance read c rest _ _ ih =>
    refine ih.imp_left ?_
    rintro ⟨lexeme, k, hscan, hk⟩
    refine ⟨lexeme, 1 + k, ?_, ?_⟩
    · rw [hscan, Nat.add_assoc]
    · rw [List.length_cons]
      omega

/-- What stands at the start of a text ends with its line, if not before. -/
theorem scan_line {c : UInt8} {rest : Text}
    (h : ∀ fault distance, scan c rest ≠ .fault fault distance) (more : Text) :
    scan c (rest ++ Text.newline :: more) = scan c rest := by
  by_cases hquote : c = Text.byte '"'
  · -- Only a string could go on; but it is closed.
    have hscan : ∀ t, scan c t = scanString 1 [] t := by
      intro t
      rw [hquote]
      rfl
    rw [hscan, hscan]
    rcases scanString_cases 1 [] rest with ⟨lexeme, k, hstring, -⟩ | ⟨fault, place, hstring⟩
    · rw [scanString_append hstring, hstring]
    · exact absurd ((hscan rest).trans hstring) (h fault place)
  · simp only [scan, ← List.cons_append, startsInteger_line, hquote, if_false,
      isPrefixOf_line (s := Text.ofString "...") (by decide),
      takeWhile_line (p := (· ≠ Text.newline)) (by decide),
      takeWhile_line (p := Text.isDigit) (by decide),
      takeWhile_line (p := isSymbolByte) (by decide)]

/-- The bytes that are taken together at the start of a text. -/
def Scan.length : Scan → Nat
  | .blank length | .token _ length => length
  | .fault _ _ => 0

theorem length_scan_le (c : UInt8) (rest : Text) : (scan c rest).length ≤ rest.length + 1 := by
  have htake : ∀ p : UInt8 → Bool, (rest.takeWhile p).length + 1 ≤ rest.length + 1 := fun p =>
    Nat.succ_le_succ (List.takeWhile_prefix p).length_le
  unfold scan
  split
  · exact Nat.le_add_left 1 rest.length
  split
  · exact htake _
  split
  · rcases scanString_cases 1 [] rest with ⟨lexeme, k, hstring, hk⟩ | ⟨fault, place, hstring⟩
    · rw [hstring, Nat.add_comm]
      exact Nat.succ_le_succ hk
    · rw [hstring]
      exact Nat.zero_le _
  split
  · next hdots => exact (List.isPrefixOf_iff_prefix.mp hdots).length_le
  split
  · exact htake _
  split
  · exact htake _
  · split
    · exact Nat.le_add_left 1 rest.length
    · exact Nat.zero_le _

/-- **The tokens of a text before a new line.** They are those that the text has alone, and the
tokens of the next line come after them. -/
theorem tokensFrom_line {taken offset : Nat} {t : Text}
    (h : (tokensFrom taken offset t).fault = none)
    (htaken : taken ≤ t.length) :
    ∃ ts : List Token, tokensFrom taken offset t =
      ⟨ts ++ [⟨.endOfInput, offset + t.length⟩], none⟩ ∧
      ∀ more, tokensFrom taken offset (t ++ Text.newline :: more) =
        ts.foldr Tokens.cons (tokensFrom 0 (offset + t.length + 1) more) := by
  fun_induction tokensFrom taken offset t with
  | case1 taken offset =>
    obtain rfl := Nat.le_zero.mp htaken
    exact ⟨[], rfl, fun more => rfl⟩
  | case2 taken offset c rest ih =>
    obtain ⟨ts, halone, hline⟩ := ih h (Nat.le_of_succ_le_succ htaken)
    rw [Nat.add_right_comm offset] at halone hline
    exact ⟨ts, halone, hline⟩
  | case3 offset c rest length hscan ih =>
    have hlength := length_scan_le c rest
    rw [hscan] at hlength
    obtain ⟨ts, halone, hline⟩ := ih h (Nat.sub_le_of_le_add hlength)
    rw [Nat.add_right_comm offset] at halone hline
    refine ⟨ts, halone, fun more => ?_⟩
    rw [List.cons_append, tokensFrom, scan_line (by simp [hscan]), hscan]
    exact hline more
  | case4 offset c rest lexeme length hscan ih =>
    have hlength := length_scan_le c rest
    rw [hscan] at hlength
    obtain ⟨ts, halone, hline⟩ := ih h (Nat.sub_le_of_le_add hlength)
    rw [Nat.add_right_comm offset] at halone hline
    refine ⟨⟨lexeme, offset⟩ :: ts, congrArg (Tokens.cons _) halone, fun more => ?_⟩
    rw [List.cons_append, tokensFrom, scan_line (by simp [hscan]), hscan]
    exact congrArg (Tokens.cons _) (hline more)
  | case5 => cases h

/-- Where a text starts says nothing about its tokens. -/
theorem tokensFrom_offset (taken offset offset' : Nat) (t : Text) :
    (tokensFrom taken offset t).tokens.map Token.lexeme =
        (tokensFrom taken offset' t).tokens.map Token.lexeme ∧
      ((tokensFrom taken offset t).fault = none ↔ (tokensFrom taken offset' t).fault = none) := by
  fun_induction tokensFrom taken offset t generalizing offset' with
  | case1 => exact ⟨rfl, Iff.rfl⟩
  | case2 taken offset c rest ih =>
    rw [tokensFrom]
    exact ih (offset' + 1)
  | case3 offset c rest length hscan ih =>
    rw [tokensFrom, hscan]
    exact ih (offset' + 1)
  | case4 offset c rest lexeme length hscan ih =>
    rw [tokensFrom, hscan]
    exact ⟨congrArg (lexeme :: ·) (ih (offset' + 1)).1, (ih (offset' + 1)).2⟩
  | case5 offset c rest fault distance hscan =>
    rw [tokensFrom, hscan]
    exact ⟨rfl, iff_of_false (Option.some_ne_none _) (Option.some_ne_none _)⟩

/-! ## Readers that have finished some data -/

namespace Reader

/-- The reader with some data read before all of its own. -/
def onto (before : List Datum) (r : Reader) : Reader := { r with done := r.done ++ before }

theorem put_onto (before : List Datum) (r : Reader) (d : Datum) :
    (r.onto before).put d = (r.put d).onto before := by
  obtain ⟨done, frames⟩ := r
  cases frames with
  | nil => rfl
  | cons f below =>
    cases f with
    | list | array | caret => rfl
    | map entries slot => cases slot <;> rfl
    | tags entries slot => cases slot <;> rfl

theorem datum_onto (before : List Datum) (r : Reader) (found : Lexeme) :
    (r.onto before).datum found = (r.datum found).map (onto before) := by
  cases found with
  | symbol | string | integer | ellipsis => exact congrArg Except.ok (put_onto before r _)
  | _ => rfl

theorem closeTags_onto (before : List Datum) (r : Reader) (entries : List (Text × Datum))
    (below : List Frame) :
    (r.onto before).closeTags entries below = (r.closeTags entries below).onto before := by
  cases below with
  | nil => rfl
  | cons f below => cases f <;> rfl

/-- **What was finished before plays no part in a step.** -/
theorem step_onto (before : List Datum) (r : Reader) (found : Lexeme) :
    (r.onto before).step found = (r.step found).map (onto before) := by
  obtain ⟨done, frames⟩ := r
  cases frames with
  | nil =>
    show (if found = .endOfInput then _ else _) =
      Except.map _ (if found = .endOfInput then _ else _)
    split
    · rfl
    · exact datum_onto before ⟨done, []⟩ found
  | cons f below =>
    have hdatum := datum_onto before ⟨done, f :: below⟩ found
    have hput := put_onto before ⟨done, below⟩
    cases f with
    | list items tags =>
      cases found with
      | rightParen => exact congrArg Except.ok (hput _)
      | caret | endOfInput => rfl
      | _ => exact hdatum
    | array items =>
      cases found with
      | rightBracket => exact congrArg Except.ok (hput _)
      | endOfInput => rfl
      | _ => exact hdatum
    | caret => cases found <;> rfl
    | map entries slot =>
      cases slot with
      | value key => exact hdatum
      | _ =>
        show (nextSlot _ found >>= _) = Except.map _ (nextSlot _ found >>= _)
        cases nextSlot _ found with
        | error fault => rfl
        | ok next =>
          cases next with
          | some slot => rfl
          | none => exact congrArg Except.ok (hput _)
    | tags entries slot =>
      cases slot with
      | value key => exact hdatum
      | _ =>
        show (nextSlot _ found >>= _) = Except.map _ (nextSlot _ found >>= _)
        cases nextSlot _ found with
        | error fault => rfl
        | ok next =>
          cases next with
          | some slot => rfl
          | none => exact congrArg Except.ok (closeTags_onto before ⟨done, _⟩ entries below)

theorem steps_onto (before : List Datum) (r : Reader) (ls : List Lexeme) :
    (r.onto before).steps ls = (r.steps ls).map (onto before) := by
  induction ls generalizing r with
  | nil => rfl
  | cons l ls ih =>
    rw [steps, steps, step_onto]
    cases r.step l with
    | error fault => rfl
    | ok next => exact ih next

/-- A reader takes the end of the input only if nothing is open, and stays as it is. -/
theorem eq_of_step_endOfInput {r r' : Reader} (h : r.step .endOfInput = .ok r') :
    r.frames = [] ∧ r' = r := by
  obtain ⟨done, frames⟩ := r
  cases frames with
  | nil =>
    cases h
    exact ⟨rfl, rfl⟩
  | cons f below =>
    cases f with
    | list | array | caret => cases h
    | map entries slot => cases slot <;> cases h
    | tags entries slot => cases slot <;> cases h

/-- Whether tokens can be read does not depend on what would be said if they could not. -/
theorem run_eq_ok_iff {r r' : Reader} {broken : Option ReadError} {ts : List Token} :
    r.run broken ts = .ok r' ↔ r.steps (ts.map Token.lexeme) = .ok r' := by
  induction ts generalizing r with
  | nil => rw [run, List.map_nil, steps, Except.ok.injEq, Except.ok.injEq]
  | cons t ts ih =>
    rw [run, List.map_cons, steps]
    cases r.step t.lexeme with
    | error fault => exact iff_of_false (fun h => by cases h) (fun h => by cases h)
    | ok next => exact ih

end Reader

/-! ## Whole texts -/

/-- A text can be read if it has no fault and a reader can take its tokens. -/
theorem parseAll_eq_ok_iff {t : Text} {ds : List Datum} :
    parseAll t = .ok ds ↔ (tokensOf t).fault = none ∧
      ∃ r, Reader.start.steps ((tokensOf t).tokens.map Token.lexeme) = .ok r ∧
        r.done.reverse = ds := by
  rw [parseAll, bind_eq_ok]
  simp only [Reader.run_eq_ok_iff, Tokens.error?]
  cases (tokensOf t).fault with
  | none =>
    simp only [Option.map_none, true_and]
    exact exists_congr fun r => and_congr_right fun _ => pure_eq_ok
  | some fault =>
    refine iff_of_false ?_ fun h => absurd h.1 (Option.some_ne_none fault)
    rintro ⟨r, -, hr⟩
    cases hr

/-- **The data of two texts.** If the first text can be read, then the two with a line end between
them can be read exactly if the second can, and the data of the second come after those of the
first. -/
theorem parseAll_append_line {t : Text} {ds : List Datum} (h : parseAll t = .ok ds) (more : Text)
    (all : List Datum) :
    parseAll (t ++ Text.newline :: more) = .ok all ↔
      ∃ es, parseAll more = .ok es ∧ all = ds ++ es := by
  obtain ⟨hfault, r, hsteps, rfl⟩ := parseAll_eq_ok_iff.mp h
  obtain ⟨ts, halone, hline⟩ := tokensFrom_line hfault (Nat.zero_le _)
  -- The first text leaves the reader with its data and nothing open.
  rw [tokensOf, halone, List.map_append, Reader.steps_append] at hsteps
  obtain ⟨behind, hbehind, hend⟩ := bind_eq_ok.mp hsteps
  obtain ⟨last, hstep, hlast⟩ := bind_eq_ok.mp hend
  cases hlast
  obtain ⟨hframes, rfl⟩ := Reader.eq_of_step_endOfInput hstep
  obtain ⟨done, frames⟩ := r
  cases hframes
  have honto : Reader.mk done [] = Reader.start.onto done := rfl
  -- The second text has the tokens that it has alone.
  obtain ⟨hlexemes, hfaults⟩ := tokensFrom_offset 0 (0 + t.length + 1) 0 more
  have hboth : tokensOf (t ++ Text.newline :: more) = _ := hline more
  rw [tokens_foldr_cons] at hboth
  rw [parseAll_eq_ok_iff, hboth]
  simp only [parseAll_eq_ok_iff, List.map_append, Reader.steps_append_ok hbehind, hlexemes, hfaults,
    honto, Reader.steps_onto, tokensOf]
  constructor
  · rintro ⟨hnone, _, hr, rfl⟩
    obtain ⟨r, hsteps, rfl⟩ := map_eq_ok.mp hr
    exact ⟨_, ⟨hnone, r, hsteps, rfl⟩, List.reverse_append⟩
  · rintro ⟨_, ⟨hnone, r, hsteps, rfl⟩, rfl⟩
    exact ⟨hnone, r.onto done, map_eq_ok.mpr ⟨r, hsteps, rfl⟩, List.reverse_append⟩

/-- A sign that the next line could make an integer of, and a comment that the next line ends. -/
def signText : Text := "[-];(\n-"

theorem parseAll_append_line_signText :
    ∃ ds, parseAll signText = .ok ds ∧ ds.length = 2 ∧
      (∀ all, parseAll (signText ++ Text.newline :: "1 ...") = .ok all ↔
        ∃ es, parseAll "1 ..." = .ok es ∧ all = ds ++ es) ∧
      ∀ all, parseAll (signText ++ Text.newline :: ")") ≠ .ok all := by
  have hlength : (parseAll signText).toOption.map List.length = some 2 := by decide +kernel
  obtain ⟨ds, hds, htwo⟩ := toOption_map_eq_some.mp hlength
  refine ⟨ds, hds, htwo, parseAll_append_line hds "1 ...", fun all hall => ?_⟩
  -- The second text cannot be read alone.
  obtain ⟨es, hes, -⟩ := (parseAll_append_line hds ")" all).mp hall
  have hnone : (parseAll ")").toOption.map List.length = none := by decide +kernel
  rw [hes] at hnone
  cases hnone

end WatCompiler.Datum
