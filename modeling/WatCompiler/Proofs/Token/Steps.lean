import WatCompiler.Proofs.Source.RoundTrip

/-!
# What one step of the lexer does

A step goes over some text and leaves the rest. Within a line it goes over a blank, a comment, the
mark that joins two lines, the end of the line, or one lexeme (`Advances`). At the start of a line
it goes over a line without tokens, or over the margin of a line that has some (`Begins`). Both say
what the step finds in terms of the text that it goes over, and of the rest only where it lets the
step stop.

They are all that a step can do (`advances_of_withinLine`, `begins_of_lineStart`), and where they
hold the step does so (`Advances.withinLine`, `Begins.lineStart`).
-/

namespace WatCompiler

namespace Token

/-- The sorts of tokens that are not part of a line. -/
def lineKinds : List Kind := [.newline, .indent, .dedent]

/-- Whether what comes next is outside of any line. -/
def betweenLines : Option Kind → Bool
  | none => true
  | some kind => kind ∈ lineKinds

end Token

namespace Lexer

open Token (Kind betweenLines isNumeral)
open Source (Lexeme IsLexeme Stops Unclosed IsQuotationMark)

variable {l next : Lexer} {passed rest : Text} {found : List Token} {c : UInt8} {after : Text}

/-- The lexer behind a text, with `rest` still to come. -/
def behind (l : Lexer) (passed rest : Text) : Lexer :=
  { l with rest := rest, offset := l.offset + passed.length }

/-- To skip the length of a text is to stand behind it. -/
theorem skip_eq_behind (h : l.rest = passed ++ rest) :
    l.skip passed.length = l.behind passed rest := by
  rw [skip, behind, h, List.drop_left]

theorem skip_one (h : l.rest = c :: after) : l.skip 1 = l.behind [c] after := by
  rw [skip, h]
  rfl

theorem not_of_mem_head?_dropWhile {p : UInt8 → Bool} {t : Text} :
    ∀ c ∈ (t.dropWhile p).head?, p c = false := by
  intro c hc
  have hstop := List.head?_dropWhile_not p t
  rw [Option.mem_def.mp hc] at hstop
  simpa using hstop

/-! ## Within a line -/

/-- A line end is found unless no line has begun since the last one. -/
theorem lineEnd_eq (l : Lexer) (n : Nat) :
    l.lineEnd n = if betweenLines l.last then [] else [l.token .newline n] := by
  unfold lineEnd
  split
  case h_5 hnone hnewline hindent hdedent =>
    cases hlast : l.last with
    | none => exact absurd hlast hnone
    | some kind =>
      have hline : kind ∉ Token.lineKinds := by
        rintro hmem
        simp only [Token.lineKinds, List.mem_cons, List.not_mem_nil, or_false] at hmem
        rcases hmem with rfl | rfl | rfl
        · exact hnewline hlast
        · exact hindent hlast
        · exact hdedent hlast
      rw [betweenLines, if_neg (by simpa using hline)]
  all_goals
    next hlast =>
    rw [hlast]
    rfl

/-- A number is refused for what comes next or for its digits. -/
theorem number_eq (l : Lexer) :
    l.number = if (l.rest.dropWhile Text.isDigit).head?.any
        (fun c => isNameStart c || c = Text.byte '.') then .error ⟨.malformedNumber, l.offset⟩
      else number.checked l (l.rest.takeWhile Text.isDigit) := by
  unfold number
  dsimp only
  cases l.rest.dropWhile Text.isDigit with
  | nil => rfl
  | cons c after => rfl

/-- A byte that is neither skipped nor ends the line starts a token. -/
theorem withinLine_token (hnewline : c ≠ Text.newline) (hblank : ¬ isBlank c = true)
    (hmark : c ≠ Text.byte '#')
    (hjoin : ¬ (c = Text.byte '\\' ∧ l.rest[1]? = some Text.newline)) :
    l.withinLine c =
      if Text.isDigit c then l.number
      else if isNameStart c then l.word
      else if c = Text.byte '"' || c = Text.byte '\'' then l.string c
      else l.operator c := by
  unfold withinLine
  rw [if_neg, if_neg hmark, if_neg, if_neg hnewline]
  · rwa [Bool.and_eq_true, decide_eq_true_eq, decide_eq_true_eq]
  · rw [Bool.or_eq_true, Bool.and_eq_true, decide_eq_true_eq]
    exact fun h => h.elim hblank fun h => hnewline h.1

/-- A line feed ends the line, but not inside brackets. -/
theorem withinLine_newline (l : Lexer) :
    l.withinLine Text.newline =
      if 0 < l.depth then .ok ([], l.skip 1)
      else .ok (l.lineEnd 1, { l.skip 1 with
        atLineStart := true
        last := if (l.lineEnd 1).isEmpty then l.last else some .newline }) := by
  unfold withinLine
  by_cases hdepth : 0 < l.depth
  · rw [if_pos hdepth, if_pos]
    rw [decide_eq_true hdepth]
    rfl
  · rw [if_neg hdepth, if_neg]
    · rfl
    · rw [decide_eq_false hdepth]
      decide

/-- What a step within a line can do. -/
inductive Advances (l : Lexer) (rest : Text) : (passed : Text) → List Token → Lexer → Prop
  | blank {c : UInt8} (h : isBlank c = true) : Advances l rest [c] [] (l.behind [c] rest)
  /-- Inside brackets a line feed is a blank like any other. -/
  | inside (h : 0 < l.depth) :
      Advances l rest [Text.newline] [] (l.behind [Text.newline] rest)
  /-- A comment goes to the end of its line. -/
  | comment {body : Text} (hbody : Text.newline ∉ body)
      (hend : ∀ c ∈ rest.head?, c = Text.newline) :
      Advances l rest (Text.byte '#' :: body) [] (l.behind (Text.byte '#' :: body) rest)
  | continuation :
      Advances l rest [Text.byte '\\', Text.newline] []
        (l.behind [Text.byte '\\', Text.newline] rest)
  | lineEnd (h : l.depth = 0) :
      Advances l rest [Text.newline]
        (if betweenLines l.last then [] else [⟨.newline, [Text.newline], l.offset, l.offset + 1⟩])
        { l.behind [Text.newline] rest with
          atLineStart := true
          last := if betweenLines l.last then l.last else some .newline }
  /-- A lexeme ends where nothing continues it. -/
  | lexeme {x : Lexeme} (h : IsLexeme x.kind x.text) (hstop : Stops x.kind rest) :
      Advances l rest x.text [⟨x.kind, x.text, l.offset, l.offset + x.text.length⟩]
        { l.behind x.text rest with depth := x.depthAfter l.depth, last := some x.kind }

/-- A token that is a lexeme. -/
theorem advances_of_take {x : Lexeme} (hx : IsLexeme x.kind x.text) (hr : l.rest = x.text ++ rest)
    (hstop : Stops x.kind rest)
    (h : take { l with depth := x.depthAfter l.depth } x.kind x.text.length = .ok (found, next)) :
    ∃ passed, l.rest = passed ++ next.rest ∧ Advances l next.rest passed found next := by
  have htake : take { l with depth := x.depthAfter l.depth } x.kind x.text.length =
      .ok ([⟨x.kind, x.text, l.offset, l.offset + x.text.length⟩],
        { l.behind x.text rest with depth := x.depthAfter l.depth, last := some x.kind }) := by
    simp only [take, token, skip, behind, hr, List.take_left, List.drop_left]
  rw [htake] at h
  cases h
  exact ⟨x.text, hr, .lexeme hx hstop⟩

/-- A step at a digit passes a numeral. -/
theorem advances_of_number (hr : l.rest = c :: after) (hc : Text.isDigit c = true)
    (h : l.number = .ok (found, next)) :
    ∃ passed, l.rest = passed ++ next.rest ∧ Advances l next.rest passed found next := by
  rw [number_eq] at h
  split at h
  · cases h
  · next hbehind =>
    unfold number.checked at h
    split at h
    · cases h
    · next hzeros =>
      have hnumeral : isNumeral (l.rest.takeWhile Text.isDigit) = true := by
        rw [isNumeral, List.all_takeWhile, Bool.eq_false_iff.mpr hzeros, hr,
          List.takeWhile_cons_of_pos hc]
        rfl
      have hstop : Stops .int (l.rest.dropWhile Text.isDigit) := by
        intro d hd
        have hdigit := not_of_mem_head?_dropWhile d hd
        rw [Option.mem_def.mp hd, Option.any_some, Bool.not_eq_true,
          Bool.or_eq_false_iff] at hbehind
        rw [Source.continues, isNameByte, hdigit, hbehind.1, hbehind.2]
        rfl
      exact advances_of_take (x := ⟨.int, l.rest.takeWhile Text.isDigit, false⟩) (.numeral hnumeral)
        List.takeWhile_append_dropWhile.symm hstop h

/-- A step at a letter passes a name or a keyword. -/
theorem advances_of_word (hr : l.rest = c :: after) (hc : isNameStart c = true)
    (h : l.word = .ok (found, next)) :
    ∃ passed, l.rest = passed ++ next.rest ∧ Advances l next.rest passed found next := by
  have hsplit : l.rest = l.rest.takeWhile isNameByte ++ l.rest.dropWhile isNameByte :=
    List.takeWhile_append_dropWhile.symm
  unfold word at h
  dsimp only at h
  cases hword : Keyword.ofText? (l.rest.takeWhile isNameByte) with
  | some k =>
    rw [hword] at h
    rw [text_of_ofText? hword] at h hsplit
    exact advances_of_take (x := ⟨.keyword k, k.text, false⟩) (.keyword k) hsplit
      not_of_mem_head?_dropWhile h
  | none =>
    rw [hword] at h
    have hname : Token.isIdentifier (l.rest.takeWhile isNameByte) = true := by
      rw [hr] at hword ⊢
      exact isIdentifier_takeWhile hc hword
    exact advances_of_take (x := ⟨.ident, l.rest.takeWhile isNameByte, false⟩)
      (.identifier hname) hsplit
      not_of_mem_head?_dropWhile h

/-- A string ends with the first mark that closes it. -/
theorem exists_unclosed {mark : UInt8} (t : Text) : ∀ n ∈ stringLength? mark t,
    ∃ body more, t = body ++ mark :: more ∧ n = body.length + 1 ∧ Unclosed mark body := by
  fun_induction stringLength? mark t with
  | case1 | case2 | case3 =>
    intro n hn
    cases hn
  | case4 b rest hc ih =>
    intro n hn
    obtain ⟨k, hk, rfl⟩ := Option.map_eq_some_iff.mp hn
    obtain ⟨body, more, rfl, rfl, hbody⟩ := ih k hk
    exact ⟨Text.byte '\\' :: b :: body, more, rfl, rfl, .escaped b hbody⟩
  | case5 rest hc hslash =>
    intro n hn
    cases hn
    exact ⟨[], rest, rfl, rfl, .nil⟩
  | case6 c rest hc hslash hmark ih =>
    intro n hn
    obtain ⟨k, hk, rfl⟩ := Option.map_eq_some_iff.mp hn
    obtain ⟨body, more, rfl, rfl, hbody⟩ := ih k hk
    exact ⟨c :: body, more, rfl, rfl, .plain hmark hslash hc hbody⟩

/-- A step at a quotation mark passes a string. -/
theorem advances_of_string (hr : l.rest = c :: after) (hc : IsQuotationMark c)
    (h : l.string c = .ok (found, next)) :
    ∃ passed, l.rest = passed ++ next.rest ∧ Advances l next.rest passed found next := by
  unfold string at h
  rw [hr] at h
  split at h
  · next n hn =>
    obtain ⟨body, more, hafter, rfl, hbody⟩ := exists_unclosed _ n hn
    have hsplit : l.rest = (c :: (body ++ [c])) ++ more := by
      rw [hr, List.cons_append, List.append_assoc]
      exact congrArg (c :: ·) hafter
    refine advances_of_take (x := ⟨.string, c :: (body ++ [c]), false⟩) (.string hc hbody) hsplit
      (fun _ _ => rfl) ?_
    rw [List.length_cons, List.length_append]
    exact h
  · cases h

/-- Operators are tried the longest ones first. -/
theorem stops_of_first? {t rest : Text} {o : Operator} (h : Operator.first? t = some o)
    (hrest : t = o.text ++ rest) : Stops (.op o) rest := by
  intro d hd
  obtain ⟨more, rfl⟩ := List.head?_eq_some_iff.mp hd
  obtain ⟨-, front, back, hall, hfront⟩ := List.find?_eq_some_iff_append.mp h
  have hsorted : Operator.all.Pairwise fun a b => b.text.length ≤ a.text.length := by decide +kernel
  rw [Source.continues, List.any_eq_false]
  intro longer hlonger heq
  rw [decide_eq_true_eq] at heq
  rw [hall] at hlonger hsorted
  -- A longer one comes before the one that was found, and it would have been found.
  rcases List.mem_append.mp hlonger with hmem | hmem
  · have hnot := hfront longer hmem
    rw [heq, hrest, Bool.not_eq_true', ← Bool.not_eq_true, List.isPrefixOf_iff_prefix] at hnot
    exact hnot ⟨more, by rw [List.append_assoc]; rfl⟩
  · have hle : longer.text.length ≤ o.text.length := by
      rcases List.mem_cons.mp hmem with rfl | hmem
      · exact Nat.le_refl _
      · exact List.rel_of_pairwise_cons (List.pairwise_append.mp hsorted).2.1 hmem
    rw [heq, List.length_append, List.length_singleton] at hle
    omega

/-- Any other step passes an operator. -/
theorem advances_of_operator (h : l.operator c = .ok (found, next)) :
    ∃ passed, l.rest = passed ++ next.rest ∧ Advances l next.rest passed found next := by
  unfold operator at h
  split at h
  · next o ho =>
    obtain ⟨rest, hrest⟩ := prefix_of_first? ho
    exact advances_of_take (x := .op o) (.operator o) hrest.symm (stops_of_first? ho hrest.symm) h
  · cases h

/-- Outside of brackets a line feed ends the line. -/
theorem withinLine_lineEnd (hr : l.rest = Text.newline :: rest) (hdepth : l.depth = 0) :
    l.withinLine Text.newline = .ok
      (if betweenLines l.last then [] else [⟨.newline, [Text.newline], l.offset, l.offset + 1⟩],
        { l.behind [Text.newline] rest with
          atLineStart := true
          last := if betweenLines l.last then l.last else some .newline }) := by
  have htoken : l.token .newline 1 = ⟨.newline, [Text.newline], l.offset, l.offset + 1⟩ := by
    rw [token, hr]
    rfl
  rw [withinLine_newline, if_neg (by omega), lineEnd_eq, skip_one hr, htoken]
  split
  · rfl
  · rfl

/-- A comment is gone over as far as the end of its line. -/
theorem withinLine_comment {body : Text} (hr : l.rest = Text.byte '#' :: body ++ rest)
    (hbody : Text.newline ∉ body) (hend : ∀ c ∈ rest.head?, c = Text.newline) :
    l.withinLine (Text.byte '#') = .ok ([], l.behind (Text.byte '#' :: body) rest) := by
  have htake : l.rest.takeWhile (· ≠ Text.newline) = Text.byte '#' :: body := by
    rw [hr]
    refine takeWhile_append_of_all (List.all_eq_true.mpr fun d hd => ?_) fun d hd => ?_
    · refine decide_eq_true fun heq => ?_
      rw [heq] at hd
      rcases List.mem_cons.mp hd with hmark | hmem
      · exact absurd hmark (by decide)
      · exact hbody hmem
    · rw [hend d hd]
      rfl
  rw [← skip_eq_behind hr, ← htake]
  rfl

/-- Every step inside a line is one of these. -/
theorem advances_of_withinLine (hr : l.rest = c :: after) (h : l.withinLine c = .ok (found, next)) :
    ∃ passed, l.rest = passed ++ next.rest ∧ Advances l next.rest passed found next := by
  by_cases hnewline : c = Text.newline
  · subst hnewline
    by_cases hdepth : 0 < l.depth
    · rw [withinLine_newline, if_pos hdepth, skip_one hr] at h
      cases h
      exact ⟨[Text.newline], hr, .inside hdepth⟩
    · rw [withinLine_lineEnd hr (by omega)] at h
      cases h
      exact ⟨[Text.newline], hr, .lineEnd (by omega)⟩
  by_cases hblank : isBlank c = true
  · rw [withinLine, hblank, Bool.true_or, if_pos rfl, skip_one hr] at h
    cases h
    exact ⟨[c], hr, .blank hblank⟩
  by_cases hmark : c = Text.byte '#'
  · subst hmark
    -- The comment is what stands before the next line feed.
    have hsplit : l.rest = Text.byte '#' :: after.takeWhile (· ≠ Text.newline) ++
        after.dropWhile (· ≠ Text.newline) := by
      rw [hr, List.cons_append, List.takeWhile_append_dropWhile]
    have hbody : Text.newline ∉ after.takeWhile (· ≠ Text.newline) := fun hmem => by
      simpa using List.all_eq_true.mp List.all_takeWhile _ hmem
    have hend : ∀ d ∈ (after.dropWhile (· ≠ Text.newline)).head?, d = Text.newline := fun d hd => by
      simpa using not_of_mem_head?_dropWhile d hd
    rw [withinLine_comment hsplit hbody hend] at h
    cases h
    exact ⟨_, hsplit, .comment hbody hend⟩
  by_cases hjoin : c = Text.byte '\\' ∧ l.rest[1]? = some Text.newline
  · obtain ⟨rfl, hsecond⟩ := hjoin
    rw [hr, List.getElem?_cons_succ, ← List.head?_eq_getElem?] at hsecond
    obtain ⟨more, rfl⟩ := List.head?_eq_some_iff.mp hsecond
    have htwo : l.skip 2 = l.behind [Text.byte '\\', Text.newline] more := by
      rw [skip, hr]
      rfl
    have hwithin : l.withinLine (Text.byte '\\') = .ok ([], l.skip 2) := by
      rw [withinLine, hr]
      rfl
    rw [hwithin, htwo] at h
    cases h
    exact ⟨_, hr, .continuation⟩
  rw [withinLine_token hnewline hblank hmark hjoin] at h
  split at h
  · next hdigit => exact advances_of_number hr hdigit h
  split at h
  · next hname => exact advances_of_word hr hname h
  split at h
  · next hquote =>
    rw [Bool.or_eq_true, decide_eq_true_eq, decide_eq_true_eq] at hquote
    exact advances_of_string hr hquote h
  · exact advances_of_operator h

/-- And what they describe are the steps that are taken. -/
theorem Advances.withinLine (h : Advances l rest passed found next) (hr : l.rest = passed ++ rest)
    (hc : passed.head? = some c) : l.withinLine c = .ok (found, next) := by
  cases h with
  | blank hblank =>
    cases hc
    rw [Lexer.withinLine, hblank, Bool.true_or, if_pos rfl, ← skip_eq_behind hr]
    rfl
  | inside hdepth =>
    cases hc
    rw [withinLine_newline, if_pos hdepth, ← skip_eq_behind hr]
    rfl
  | comment hbody hend =>
    cases hc
    exact withinLine_comment hr hbody hend
  | continuation =>
    cases hc
    rw [← skip_eq_behind hr, Lexer.withinLine, hr]
    rfl
  | lineEnd hdepth =>
    cases hc
    exact withinLine_lineEnd hr hdepth
  | @lexeme x hx hstop =>
    obtain ⟨t, htext⟩ := List.head?_eq_some_iff.mp hc
    rw [Source.withinLine_lexeme hx htext hstop hr]
    simp only [take, token, skip, behind, hr, List.take_left, List.drop_left]

/-! ## At the start of a line -/

/-- The end of a line that is gone over whole: its line feed, or the end of the source. -/
def Finishes (ending rest : Text) : Prop := ending = [Text.newline] ∨ ending = [] ∧ rest = []

/-- A line is as long as its body and its end. -/
theorem lineLength_line {body ending rest : Text} (hbody : Text.newline ∉ body)
    (hend : Finishes ending rest) :
    Text.lineLength (body ++ ending ++ rest) = (body ++ ending).length := by
  induction body with
  | nil =>
    rcases hend with rfl | ⟨rfl, rfl⟩
    · rfl
    · rfl
  | cons c body ih =>
    obtain ⟨hc, hbody⟩ := not_or.mp (mt List.mem_cons.mpr hbody)
    rw [List.cons_append, List.cons_append, Text.lineLength, if_neg (Ne.symm hc), ih hbody]
    rfl

/-- A text starts with a line, the end of which may be missing. -/
theorem exists_finishes (t : Text) :
    ∃ body ending rest, t = body ++ ending ++ rest ∧ Text.newline ∉ body ∧
      Finishes ending rest := by
  by_cases hmem : Text.newline ∈ t
  · obtain ⟨body, rest, rfl, hbody⟩ := List.eq_append_cons_of_mem hmem
    exact ⟨body, [Text.newline], rest, by rw [List.append_assoc]; rfl, hbody, .inl rfl⟩
  · exact ⟨t, [], [], by rw [List.append_nil, List.append_nil], hmem, .inr ⟨rfl, rfl⟩⟩

/-- The text starts with something that belongs to no margin, comment or empty line. -/
def IsVisible (t : Text) : Prop := ∃ c ∈ t.head?, isMargin c = false ∧ isSkipped c = false

/-- What a step at the start of a line can do. -/
inductive Begins (l : Lexer) (rest : Text) : (passed : Text) → List Token → Lexer → Prop
  /-- The source ends with a margin. -/
  | margin {margin : Text} (hmargin : margin.all isMargin = true) (hrest : rest = []) :
      Begins l rest margin [] (l.behind margin rest)
  /-- A line without tokens, which ends with a line feed or with the source. -/
  | skipped {margin body ending : Text} (hmargin : margin.all isMargin = true)
      (hbody : Text.newline ∉ body) (hend : Finishes ending rest)
      (hfirst : ∃ c ∈ (body ++ ending).head?, isSkipped c = true) :
      Begins l rest (margin ++ (body ++ ending)) [] (l.behind (margin ++ (body ++ ending)) rest)
  /-- A margin that is wider than the one before opens an indentation, but not that of the first
  line. -/
  | opens {margin : Text} (hmargin : margin.all isMargin = true) (hfirst : IsVisible rest)
      (hwidth : l.indents.headD 0 < marginWidth margin) (hlast : ¬ l.last.isNone = true) :
      Begins l rest margin [⟨.indent, margin, l.offset, l.offset + margin.length⟩]
        { l.behind margin rest with
          atLineStart := false
          indents := marginWidth margin :: l.indents
          last := some .indent }
  /-- Any other margin closes the wider ones, and is as wide as the next one. -/
  | closes {margin : Text} (hmargin : margin.all isMargin = true) (hfirst : IsVisible rest)
      (hwidth : ¬ l.indents.headD 0 < marginWidth margin)
      (hkept : (l.indents.dropWhile (marginWidth margin < ·)).headD 0 = marginWidth margin) :
      Begins l rest margin
        ((l.indents.takeWhile (marginWidth margin < ·)).map fun _ =>
          ⟨.dedent, [], l.offset + margin.length, l.offset + margin.length⟩)
        { l.behind margin rest with
          atLineStart := false
          indents := l.indents.dropWhile (marginWidth margin < ·)
          last := if (l.indents.takeWhile (marginWidth margin < ·)).isEmpty then l.last
            else some .dedent }

/-- The byte that makes a line blank is not part of its margin. -/
theorem not_isMargin_of_isSkipped (c : UInt8) (h : isSkipped c = true) : isMargin c = false := by
  revert c
  decide +kernel

section

variable {margin : Text} (hmargin : margin.all isMargin = true)

include hmargin

/-- A last line of nothing but a margin is passed. -/
theorem lineStart_margin (hr : l.rest = margin ++ []) :
    l.lineStart = .ok ([], l.skip margin.length) := by
  have hstop : ∀ c ∈ ([] : Text).head?, isMargin c = false := nofun
  rw [lineStart, hr, takeWhile_append_of_all hmargin hstop, dropWhile_append_of_all hmargin hstop]

/-- A blank line is passed with its end. -/
theorem lineStart_skipped (hr : l.rest = margin ++ c :: after) (hc : isSkipped c = true) :
    l.lineStart = .ok ([], l.skip (margin.length + Text.lineLength (c :: after))) := by
  have hstop : ∀ d ∈ (c :: after).head?, isMargin d = false := by
    rintro d hd
    cases hd
    exact not_isMargin_of_isSkipped c hc
  rw [lineStart, hr, takeWhile_append_of_all hmargin hstop, dropWhile_append_of_all hmargin hstop]
  exact if_pos hc

/-- Any other line opens or closes blocks by its margin. -/
theorem lineStart_indented (hr : l.rest = margin ++ c :: after) (hc : isMargin c = false)
    (hskipped : isSkipped c = false) :
    l.lineStart = l.indentTo margin.length (marginWidth margin) := by
  have hstop : ∀ d ∈ (c :: after).head?, isMargin d = false := by
    rintro d hd
    cases hd
    exact hc
  rw [lineStart, hr, takeWhile_append_of_all hmargin hstop, dropWhile_append_of_all hmargin hstop]
  exact if_neg (Bool.eq_false_iff.mp hskipped)

end

/-- Every step at the start of a line is one of these. -/
theorem begins_of_lineStart (h : l.lineStart = .ok (found, next)) :
    ∃ passed, l.rest = passed ++ next.rest ∧ Begins l next.rest passed found next := by
  have hmargin : (l.rest.takeWhile isMargin).all isMargin = true := List.all_takeWhile
  have hsplit : l.rest = l.rest.takeWhile isMargin ++ l.rest.dropWhile isMargin :=
    List.takeWhile_append_dropWhile.symm
  have hstop := not_of_mem_head?_dropWhile (p := isMargin) (t := l.rest)
  generalize l.rest.takeWhile isMargin = margin at hmargin hsplit
  cases hrest : l.rest.dropWhile isMargin with
  | nil =>
    rw [hrest] at hsplit
    rw [lineStart_margin hmargin hsplit, skip_eq_behind hsplit] at h
    cases h
    exact ⟨margin, hsplit, .margin hmargin rfl⟩
  | cons c after =>
    rw [hrest] at hsplit hstop
    cases hskipped : isSkipped c with
    | true =>
      rw [lineStart_skipped hmargin hsplit hskipped] at h
      obtain ⟨body, ending, rest, hline, hbody, hend⟩ := exists_finishes (c :: after)
      have hfirst : (body ++ ending).head? = some c := by
        cases body with
        | nil =>
          rcases hend with rfl | ⟨rfl, rfl⟩
          · cases hline
            rfl
          · cases hline
        | cons d body =>
          cases hline
          rfl
      have hpassed : l.rest = margin ++ (body ++ ending) ++ rest := by
        rw [hsplit, hline, List.append_assoc margin]
      rw [hline, lineLength_line hbody hend, ← List.length_append, skip_eq_behind hpassed] at h
      cases h
      exact ⟨_, hpassed, .skipped hmargin hbody hend ⟨c, hfirst, hskipped⟩⟩
    | false =>
      rw [lineStart_indented hmargin hsplit (hstop c rfl) hskipped] at h
      simp only [indentTo, skip, token, hsplit, List.take_left, List.drop_left, List.take_zero] at h
      have hfirst : IsVisible (c :: after) := ⟨c, rfl, hstop c rfl, hskipped⟩
      split at h
      · next hwidth =>
        split at h
        · cases h
        · next hlast =>
          cases h
          exact ⟨margin, hsplit, .opens hmargin hfirst hwidth hlast⟩
      · next hwidth =>
        split at h
        · next hkept =>
          cases h
          exact ⟨margin, hsplit, .closes hmargin hfirst hwidth hkept⟩
        · cases h

/-- And what they describe are the steps that are taken. -/
theorem Begins.lineStart (h : Begins l rest passed found next) (hr : l.rest = passed ++ rest) :
    l.lineStart = .ok (found, next) := by
  cases h with
  | margin hmargin hrest =>
    subst hrest
    rw [lineStart_margin hmargin hr, skip_eq_behind hr]
  | @skipped margin body ending hmargin hbody hend hfirst =>
    obtain ⟨c, hc, hskipped⟩ := hfirst
    obtain ⟨more, hmore⟩ := List.head?_eq_some_iff.mp hc
    have hsplit : l.rest = margin ++ c :: (more ++ rest) := by
      rw [hr, hmore, List.append_assoc]
      rfl
    have hlength : Text.lineLength (c :: (more ++ rest)) = (body ++ ending).length := by
      rw [← List.cons_append, ← hmore]
      exact lineLength_line hbody hend
    rw [lineStart_skipped hmargin hsplit hskipped, hlength, ← List.length_append, skip_eq_behind hr]
  | opens hmargin hfirst hwidth hlast =>
    obtain ⟨c, hc, hstop, hskipped⟩ := hfirst
    obtain ⟨after, rfl⟩ := List.head?_eq_some_iff.mp hc
    rw [lineStart_indented hmargin hr hstop hskipped]
    simp only [indentTo, if_pos hwidth, if_neg hlast, token, skip, hr, List.take_left,
      List.drop_left]
    rfl
  | closes hmargin hfirst hwidth hkept =>
    obtain ⟨c, hc, hstop, hskipped⟩ := hfirst
    obtain ⟨after, rfl⟩ := List.head?_eq_some_iff.mp hc
    rw [lineStart_indented hmargin hr hstop hskipped]
    simp only [indentTo, if_neg hwidth, if_pos hkept, token, skip, hr, List.take_zero,
      List.drop_left]
    rfl

/-! ## All steps -/

/-- A step goes over some text, at the start of a line or within one. -/
theorem exists_passed_of_step (hr : l.rest = c :: after) (hstep : l.step c = .ok (found, next)) :
    ∃ passed, l.rest = passed ++ next.rest ∧
      (l.atLineStart = true ∧ Begins l next.rest passed found next ∨
        l.atLineStart = false ∧ Advances l next.rest passed found next) := by
  unfold step at hstep
  split at hstep
  · next hl =>
    obtain ⟨passed, hpassed, hbegins⟩ := begins_of_lineStart hstep
    exact ⟨passed, hpassed, .inl ⟨hl, hbegins⟩⟩
  · next hl =>
    obtain ⟨passed, hpassed, hadvances⟩ := advances_of_withinLine hr hstep
    exact ⟨passed, hpassed, .inr ⟨Bool.eq_false_iff.mpr hl, hadvances⟩⟩

/-- A step inside a line passes something. -/
theorem Advances.ne_nil (h : Advances l rest passed found next) : passed ≠ [] := by
  cases h with
  | lexeme hx _ =>
    obtain ⟨c, more, htext, -⟩ := hx.exists_eq_cons
    rw [htext]
    exact List.cons_ne_nil c more
  | _ => exact List.cons_ne_nil _ _

/-- It passes the next byte first. -/
theorem Advances.head?_eq (h : Advances l rest passed found next) (hr : l.rest = c :: after)
    (hpassed : l.rest = passed ++ rest) : passed.head? = some c := by
  rw [← List.head?_append_of_ne_nil passed h.ne_nil, ← hpassed, hr]
  rfl

/-- A step that goes over `passed`. -/
theorem Begins.step (h : Begins l rest passed found next) (hl : l.atLineStart = true)
    (hr : l.rest = passed ++ rest) (c : UInt8) : l.step c = .ok (found, next) := by
  rw [Lexer.step, if_pos hl]
  exact h.lineStart hr

theorem Advances.step (h : Advances l rest passed found next) (hl : l.atLineStart = false)
    (hr : l.rest = passed ++ rest) (hc : passed.head? = some c) : l.step c = .ok (found, next) := by
  rw [Lexer.step, hl, if_neg Bool.false_ne_true]
  exact h.withinLine hr hc

/-- What a step finds comes first in what the run finds. -/
theorem run_of_step {l' : Lexer} {found' : List Token} (hr : l.rest = c :: after)
    (hstep : l.step c = .ok (found', l')) : l.run = l'.run.map (found' ++ ·) := by
  rw [run_cons hr, hstep]
  rfl

theorem run_of_nothing {l' : Lexer} (hr : l.rest = c :: after)
    (hstep : l.step c = .ok ([], l')) : l.run = l'.run := by
  rw [run_of_step hr hstep]
  cases l'.run <;> rfl

end Lexer

end WatCompiler
