import WatCompiler.Proofs.Source.Lines

/-!
# Lexemes with single spaces between them

Every sort of token has its lexemes (`IsLexeme`). Lexemes in a row with a single space between
neighbours are cut into just these tokens, wherever each of them stands (`tokenize_join`): no lexeme
is taken for another one or for two, and nothing in a string is taken for a comment, a bracket or
the end of the line.

One step within a line takes the lexeme that is there, as a space ends every token but a string, and
a string ends at its own mark (`withinLine_lexeme`). From this the run over a row follows by
induction (`run_join`).
-/

namespace WatCompiler

open SyntaxTree (isLayout)

namespace Source

open Lexer (isNameStart isNameByte)
open Token (Kind isIdentifier isNumeral)

/-! ## Lexemes -/

/-- A text up to the first `mark` that closes a string: a backslash takes the byte after it along,
whatever that is, and apart from such bytes there is neither the mark nor a line feed. -/
inductive Unclosed (mark : UInt8) : Text → Prop
  | nil : Unclosed mark []
  | plain {c : UInt8} {t : Text} (notMark : c ≠ mark) (notEscape : c ≠ Text.byte '\\')
      (notNewline : c ≠ Text.newline) (rest : Unclosed mark t) : Unclosed mark (c :: t)
  | escaped (c : UInt8) {t : Text} (rest : Unclosed mark t) :
    Unclosed mark (Text.byte '\\' :: c :: t)

/-- The marks that strings stand between. -/
def IsQuotationMark (c : UInt8) : Prop := c = Text.byte '"' ∨ c = Text.byte '\''

/-- The spellings of each sort of token that is not there for the line structure. -/
inductive IsLexeme : Kind → Text → Prop
  | identifier {t : Text} (h : isIdentifier t = true) : IsLexeme .ident t
  | numeral {t : Text} (h : isNumeral t = true) : IsLexeme .int t
  | keyword (k : Keyword) : IsLexeme (.keyword k) k.text
  | operator (o : Operator) : IsLexeme (.op o) o.text
  | string {mark : UInt8} (hmark : IsQuotationMark mark) {body : Text} (h : Unclosed mark body) :
      IsLexeme .string (mark :: (body ++ [mark]))

/-- The tokens of lexemes with a single space between neighbours, the first of them at `offset`. -/
def placed (offset : Nat) : List Lexeme → List Token
  | [] => []
  | x :: rest =>
    ⟨x.kind, x.text, offset, offset + x.text.length⟩ :: placed (offset + x.text.length + 1) rest

/-- The tokens that end the last line and the source. -/
def ending (offset : Nat) : List Token :=
  [⟨.newline, [], offset, offset⟩, ⟨.endOfInput, [], offset, offset⟩]

/-! ## One lexeme -/

theorem IsLexeme.not_isLayout {kind : Kind} {t : Text} (h : IsLexeme kind t) :
    isLayout kind = false := by
  cases h <;> rfl

/-- The first byte of a lexeme belongs to no margin, comment or empty line. -/
theorem IsLexeme.exists_eq_cons {kind : Kind} {t : Text} (h : IsLexeme kind t) :
    ∃ c rest, t = c :: rest ∧ Lexer.isMargin c = false ∧ Lexer.isSkipped c = false := by
  cases h with
  | @identifier t h =>
    cases t with
    | nil => cases h
    | cons c rest =>
      have hc : isNameStart c = true := by
        simp only [isIdentifier, Bool.and_eq_true] at h
        exact h.1.1
      exact ⟨c, rest, rfl, visible_of_starts (.name h) hc⟩
  | @numeral t h =>
    cases t with
    | nil => cases h
    | cons c rest =>
      simp only [isNumeral, List.all_cons, Bool.and_eq_true] at h
      exact ⟨c, rest, rfl, visible_of_starts (.numeral 0) h.1.2.1⟩
  | keyword k =>
    obtain ⟨c, rest, htext, hc⟩ := exists_text_eq_cons (.keyword k)
    exact ⟨c, rest, htext, visible_of_starts (.keyword k) hc⟩
  | operator o =>
    obtain ⟨c, rest, htext, hc⟩ := exists_text_eq_cons (.op o)
    exact ⟨c, rest, htext, visible_of_starts (.op o) hc⟩
  | @string mark hmark body h =>
    refine ⟨mark, body ++ [mark], rfl, ?_⟩
    rcases hmark with rfl | rfl <;> decide

/-- A string ends with its mark, whatever comes after it. -/
theorem stringLength?_of_unclosed {mark : UInt8} (hmark : IsQuotationMark mark) {body : Text}
    (h : Unclosed mark body) (rest : Text) :
    Lexer.stringLength? mark (body ++ mark :: rest) = some (body.length + 1) := by
  induction h with
  | nil =>
    have hbyte : mark ≠ Text.newline ∧ mark ≠ Text.byte '\\' := by
      rcases hmark with rfl | rfl <;> decide
    obtain ⟨hnewline, hescape⟩ := hbyte
    rw [List.nil_append, Lexer.stringLength?.eq_def]
    simp [hnewline, hescape]
  | plain notMark notEscape notNewline _ ih =>
    rw [List.cons_append, Lexer.stringLength?.eq_def]
    simp [notMark, notEscape, notNewline, ih]
  | escaped c _ ih =>
    have hescape : Text.byte '\\' ≠ Text.newline := by decide
    simp [Lexer.stringLength?, hescape, ih]

theorem withinLine_of_quotationMark {c : UInt8} (hc : IsQuotationMark c) (l : Lexer) :
    l.withinLine c = l.string c := by
  rcases hc with rfl | rfl <;> rfl

/-- A lexeme is taken whole, as a token of its sort, if the text after it does not continue it. -/
theorem withinLine_lexeme {l : Lexer} {x : Lexeme} (hx : IsLexeme x.kind x.text) {c : UInt8}
    {t rest : Text} (htext : x.text = c :: t) (hstop : Stops x.kind rest)
    (hrest : l.rest = x.text ++ rest) :
    l.withinLine c = { l with depth := x.depthAfter l.depth }.take x.kind x.text.length := by
  obtain ⟨kind, text, tight⟩ := x
  dsimp only at hx htext hstop hrest ⊢
  cases hx with
  | identifier h =>
    subst htext
    simp only [isIdentifier, Bool.and_eq_true, Option.isNone_iff_eq_none] at h
    obtain ⟨⟨hc, hname⟩, hkeyword⟩ := h
    have hall : (c :: t).all isNameByte = true := by
      rw [List.all_cons, hname, isNameByte, hc]
      rfl
    rw [withinLine_word hc hall hstop hrest, hkeyword]
    rfl
  | numeral h =>
    subst htext
    exact withinLine_numeral h hstop hrest
  | keyword k =>
    obtain ⟨hhead, hall, hofText⟩ := keyword_text k
    rw [htext] at hhead hall hofText hrest ⊢
    rw [withinLine_word hhead hall hstop hrest, hofText]
    rfl
  | operator o =>
    have hhead : o.text.head? = some c := by rw [htext]; rfl
    rw [withinLine_of_operator hhead, Lexer.operator, hrest, first?_append hstop]
    rfl
  | @string mark hmark body h =>
    obtain ⟨rfl, rfl⟩ := List.cons.inj htext
    have hlength : Lexer.stringLength? mark (l.rest.drop 1) = some (body.length + 1) := by
      rw [hrest]
      show Lexer.stringLength? mark (body ++ [mark] ++ rest) = _
      rw [List.append_assoc]
      exact stringLength?_of_unclosed hmark h rest
    rw [withinLine_of_quotationMark hmark, Lexer.string, hlength, List.length_cons,
      List.length_append]
    rfl

/-! ## Lexemes in a row -/

theorem exists_join_eq (first : Text) (others : List Text) :
    ∃ t, Text.join " " (first :: others) = first ++ t := by
  cases others with
  | nil => exact ⟨[], (List.append_nil first).symm⟩
  | cons second others => exact ⟨_, List.append_assoc first " " _⟩

variable {rest : Text} {offset depth : Nat} {indents : List Nat} {last : Option Kind}

theorem run_lexeme {x : Lexeme} (hx : IsLexeme x.kind x.text) (hstop : Stops x.kind rest) :
    Lexer.run ⟨x.text ++ rest, offset, false, depth, indents, last⟩ =
      (Lexer.run ⟨rest, offset + x.text.length, false, x.depthAfter depth, indents,
        some x.kind⟩).map (⟨x.kind, x.text, offset, offset + x.text.length⟩ :: ·) := by
  obtain ⟨c, t, htext, -, -⟩ := hx.exists_eq_cons
  have hstep : Lexer.withinLine ⟨x.text ++ rest, offset, false, depth, indents, last⟩ c = _ :=
    withinLine_lexeme hx htext hstop rfl
  rw [Lexer.take, Lexer.token, Lexer.skip] at hstep
  dsimp only at hstep
  rw [List.take_left, List.drop_left] at hstep
  have hcons : x.text ++ rest = c :: (t ++ rest) := by rw [htext]; rfl
  rw [Lexer.run_cons hcons, Lexer.step, if_neg Bool.false_ne_true, hstep]
  rfl

theorem run_space :
    Lexer.run ⟨Text.byte ' ' :: rest, offset, false, depth, indents, last⟩ =
      Lexer.run ⟨rest, offset + 1, false, depth, indents, last⟩ := by
  have hstep : Lexer.step ⟨Text.byte ' ' :: rest, offset, false, depth, indents, last⟩
      (Text.byte ' ') = .ok ([], ⟨rest, offset + 1, false, depth, indents, last⟩) := rfl
  rw [Lexer.run_cons rfl, hstep]
  exact congrFun Except.map_id _

/-- At the end of the source the line ends, and then the input. -/
theorem run_end {kind : Kind} (hkind : isLayout kind = false) :
    Lexer.run ⟨[], offset, false, 0, [], some kind⟩ = .ok (ending offset) := by
  rw [Lexer.run_nil rfl, Lexer.finish]
  cases kind <;> first | rfl | cases hkind

/-- **The run over lexemes in a row.** It starts anywhere within a line, inside any number of
brackets that the lexemes close. -/
theorem run_join {words : List Lexeme} (hne : words ≠ [])
    (hwords : ∀ x ∈ words, IsLexeme x.kind x.text)
    (hdepth : words.foldl Lexeme.depthAfter depth = 0) :
    Lexer.run ⟨Text.join " " (words.map Lexeme.text), offset, false, depth, [], last⟩ =
      .ok (placed offset words ++
        ending (offset + (Text.join " " (words.map Lexeme.text)).length)) := by
  induction words generalizing offset depth last with
  | nil => exact absurd rfl hne
  | cons x rest ih =>
    have hx := hwords x List.mem_cons_self
    cases rest with
    | nil =>
      have hrun : Lexer.run ⟨x.text ++ [], offset, false, depth, [], last⟩ = _ :=
        run_lexeme hx fun _ hd => nomatch hd
      have hzero : x.depthAfter depth = 0 := hdepth
      rw [List.append_nil, hzero, run_end hx.not_isLayout] at hrun
      exact hrun
    | cons y more =>
      have hjoin : Text.join " " ((x :: y :: more).map Lexeme.text) =
          x.text ++ Text.byte ' ' :: Text.join " " ((y :: more).map Lexeme.text) :=
        List.append_assoc x.text " " _
      have hend : offset + x.text.length + 1 +
          (Text.join " " ((y :: more).map Lexeme.text)).length =
          offset +
            (x.text ++ Text.byte ' ' :: Text.join " " ((y :: more).map Lexeme.text)).length := by
        rw [List.length_append, List.length_cons]
        omega
      have hrest : Lexer.run ⟨Text.join " " ((y :: more).map Lexeme.text),
          offset + x.text.length + 1,
          false, x.depthAfter depth, [], some x.kind⟩ = _ :=
        ih (List.cons_ne_nil y more) (fun z hz => hwords z (List.mem_cons_of_mem x hz)) hdepth
      rw [hjoin, run_lexeme hx (stops_separator (by decide) _ _), run_space, hrest, hend]
      rfl

/-- **Lexemes in a row are cut into themselves.** If every lexeme is spelled as its sort of token
is, and the brackets are all closed in the end, then the lexemes with a single space between
neighbours have the tokens of these sorts with these spellings, each where it stands, and after them
only the end of the line and the end of the input. -/
theorem tokenize_join {words : List Lexeme} (hne : words ≠ [])
    (hwords : ∀ x ∈ words, IsLexeme x.kind x.text) (hdepth : words.foldl Lexeme.depthAfter 0 = 0) :
    tokenize (Text.join " " (words.map Lexeme.text)) =
      .ok (placed 0 words ++ ending (Text.join " " (words.map Lexeme.text)).length) := by
  obtain ⟨x, more, rfl⟩ := List.exists_cons_of_ne_nil hne
  obtain ⟨c, t, htext, hmargin, hskipped⟩ := (hwords x List.mem_cons_self).exists_eq_cons
  obtain ⟨u, hu⟩ := exists_join_eq x.text (more.map Lexeme.text)
  have hsource : Text.join " " ((x :: more).map Lexeme.text) = c :: (t ++ u) := by
    rw [List.map_cons, hu, htext]
    rfl
  have hrun : Lexer.run ⟨Text.join " " ((x :: more).map Lexeme.text), 0, false, 0, [], none⟩ = _ :=
    run_join hne hwords hdepth
  rw [Nat.zero_add] at hrun
  refine mapError_eq_ok.mpr ?_
  generalize Text.join " " ((x :: more).map Lexeme.text) = source at hsource hrun ⊢
  -- The first line has no margin, so the first step only settles that.
  have hstart : AtMargin (List.replicate 0 (Text.byte ' ') ++ c :: (t ++ u)) []
      (Lexer.start source) :=
    ⟨hsource, rfl, rfl, rfl, .inl rfl⟩
  have hstep : (Lexer.start source).step c = .ok ([], ⟨source, 0, false, 0, [], none⟩) :=
    step_margin hmargin hskipped hstart c
  rw [Lexer.run_cons hsource, hstep]
  show (Lexer.run ⟨source, 0, false, 0, [], none⟩).map _ = _
  rw [hrun]
  rfl

/-- A bracket that closes nothing, a string with everything in it that could be taken for something
else, zeros, and operators that start alike. -/
def closeWords : List Lexeme :=
  [.op .rightParen, .name "x1", .op .leftParen, ⟨.string, "'#\\'\"(\\\n'", false⟩, .op .rightParen,
    ⟨.int, "00", false⟩, .op .floorDivide, .op .divide, .keyword .is]

theorem tokenize_join_closeWords :
    (∀ x ∈ closeWords, IsLexeme x.kind x.text) ∧ closeWords.foldl Lexeme.depthAfter 0 = 0 ∧
      tokenize ") x1 ( '#\\'\"(\\\n' ) 00 // / is" = .ok (placed 0 closeWords ++ ending 29) := by
  have hstring : Unclosed (Text.byte '\'') "#\\'\"(\\\n" :=
    .plain
      (by decide) (by decide) (by decide) (.escaped _ (.plain (by decide) (by decide) (by decide)
      (.plain (by decide) (by decide) (by decide) (.escaped _ .nil))))
  have hwords : ∀ x ∈ closeWords, IsLexeme x.kind x.text := by
    simp only [closeWords, List.forall_mem_cons]
    exact ⟨.operator _,
      .identifier (by decide), .operator _, .string (.inr rfl) hstring, .operator _,
      .numeral (by decide), .operator _, .operator _, .keyword _, List.forall_mem_nil _⟩
  have hdepth : closeWords.foldl Lexeme.depthAfter 0 = 0 := by decide
  have hne : closeWords ≠ [] := List.cons_ne_nil _ _
  have hjoin : Text.join " " (closeWords.map Lexeme.text) =
      Text.ofString ") x1 ( '#\\'\"(\\\n' ) 00 // / is" := by
    decide +kernel
  have htokens := tokenize_join hne hwords hdepth
  rw [hjoin] at htokens
  exact ⟨hwords, hdepth, htokens⟩

end Source

end WatCompiler
