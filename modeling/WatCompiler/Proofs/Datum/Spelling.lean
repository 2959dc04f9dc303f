import WatCompiler.Datum.Printer
import WatCompiler.Proofs.Datum.Reading
import WatCompiler.Wat.Layout

/-!
# Written data are read back

A text spells tokens in front of another text when cutting the two together gives those tokens and
then the ones of the other text. Symbols and integers need a delimiter after them; all else that a
printer writes stands on its own. Main statements: the text of a well-formed datum is read as that
datum (`parse_render`), the texts of data that were read are read as those data again
(`parseAll_join_render`), and so is a text that is laid out over lines (`Layout.parse_text`).
-/

namespace WatCompiler

namespace Datum

/-- A text that does not go on with a symbol or an integer. -/
def Delimits (rest : Text) : Prop := ∀ c ∈ rest.head?, isSymbolByte c = false

theorem delimits_nil : Delimits [] := by
  intro c hc
  cases hc

theorem delimits_cons {c : UInt8} (h : isSymbolByte c = false) (rest : Text) :
    Delimits (c :: rest) := by
  intro b hb
  cases hb
  exact h

/-- What a delimiter follows is cut off right there. -/
theorem takeWhile_append_of_delimits {p : UInt8 → Bool}
    (hp : ∀ c, p c = true → isSymbolByte c = true) {t rest : Text} (ht : t.all p = true)
    (hr : Delimits rest) : (t ++ rest).takeWhile p = t := by
  refine takeWhile_append_of_all ht fun c hc => ?_
  have hsymbol := hr c hc
  exact Bool.eq_false_iff.mpr fun h => by
    rw [hp c h] at hsymbol
    cases hsymbol

/-- A start of a text that is all of one class is cut off with what follows of that class. -/
theorem prefix_takeWhile {p : UInt8 → Bool} {s t : Text} (h : s <+: t) (hs : s.all p = true) :
    s <+: t.takeWhile p := by
  obtain ⟨more, rfl⟩ := h
  rw [List.takeWhile_append_of_pos (List.all_eq_true.mp hs)]
  exact List.prefix_append s _

/-! ## What stands at the start of a text -/

/-- A byte of a symbol starts no space, comment or string. -/
theorem isSymbolByte_cases (c : UInt8) (h : isSymbolByte c = true) :
    isSpace c = false ∧ c ≠ Text.byte ';' ∧ c ≠ Text.byte '"' := by
  revert c
  decide +kernel

/-- An integer starts with a byte that symbols have, too. -/
theorem isSymbolByte_of_startsInteger {c : UInt8} {rest : Text}
    (h : startsInteger c rest = true) : isSymbolByte c = true := by
  rw [startsInteger, Bool.or_eq_true, Bool.and_eq_true] at h
  rcases h with h | ⟨h, -⟩
  · exact isSymbolByte_of_isDigit c h
  · simp only [Bool.or_eq_true, decide_eq_true_eq] at h
    rcases h with rfl | rfl <;> decide

/-- The first bytes of symbols and integers decide which of the two they are. -/
theorem scan_of_isSymbolByte {c : UInt8} (h : isSymbolByte c = true) (rest : Text) :
    scan c rest =
      if (Text.ofString "...").isPrefixOf (c :: rest) then .token .ellipsis 3
      else if startsInteger c rest then
        .token (.integer (c :: rest.takeWhile Text.isDigit))
          ((rest.takeWhile Text.isDigit).length + 1)
      else .token (.symbol (c :: rest.takeWhile isSymbolByte))
        ((rest.takeWhile isSymbolByte).length + 1) := by
  obtain ⟨hspace, hcomment, hquote⟩ := isSymbolByte_cases c h
  simp only [scan, hspace, hcomment, hquote, h, if_true, if_false, Bool.false_eq_true]

/-- A symbol is cut off whole where a delimiter follows. -/
theorem scan_symbol {c : UInt8} {more rest : Text} (h : isSymbol (c :: more) = true)
    (hr : Delimits rest) :
    scan c (more ++ rest) = .token (.symbol (c :: more)) (more.length + 1) := by
  simp only [isSymbol, Bool.and_eq_true, Bool.not_eq_true', and_assoc] at h
  obtain ⟨hc, hmore, hinteger, hdots⟩ := h
  have htake : (more ++ rest).takeWhile isSymbolByte = more :=
    takeWhile_append_of_delimits (fun _ => id) hmore hr
  have hinteger' : startsInteger c (more ++ rest) = false := by
    rw [← startsInteger_takeWhile, htake, hinteger]
  have hdots' : ¬ (Text.ofString "...").isPrefixOf (c :: (more ++ rest)) = true := by
    intro hp
    have hp' := prefix_takeWhile (List.isPrefixOf_iff_prefix.mp hp)
      (show (Text.ofString "...").all isSymbolByte = true by decide)
    rw [List.takeWhile_cons_of_pos hc, htake] at hp'
    rw [List.isPrefixOf_iff_prefix.mpr hp'] at hdots
    cases hdots
  rw [scan_of_isSymbolByte hc, if_neg hdots', hinteger', htake]
  rfl

/-- An integer is cut off whole where a delimiter follows. -/
theorem scan_integer {c : UInt8} {more rest : Text} (h : isInteger (c :: more) = true)
    (hr : Delimits rest) :
    scan c (more ++ rest) = .token (.integer (c :: more)) (more.length + 1) := by
  simp only [isInteger, Bool.and_eq_true] at h
  obtain ⟨hstart, hmore⟩ := h
  have htake : (more ++ rest).takeWhile Text.isDigit = more :=
    takeWhile_append_of_delimits isSymbolByte_of_isDigit hmore hr
  have hstart' : startsInteger c (more ++ rest) = true := by
    simp only [startsInteger, Bool.or_eq_true, Bool.and_eq_true] at hstart ⊢
    refine hstart.imp_right fun hsigned => ⟨hsigned.1, ?_⟩
    cases more with
    | nil => cases hsigned.2
    | cons d more => exact hsigned.2
  have hdots : ¬ (Text.ofString "...").isPrefixOf (c :: (more ++ rest)) = true := by
    intro hp
    have hc : c = Text.byte '.' := by
      obtain ⟨tail, htail⟩ := List.isPrefixOf_iff_prefix.mp hp
      exact (List.cons.inj htail).1.symm
    subst hc
    cases hstart
  rw [scan_of_isSymbolByte (isSymbolByte_of_startsInteger hstart), if_neg hdots, hstart', htake]
  rfl

/-- A quotation mark ends a string. -/
theorem scanString_close (distance : Nat) (read rest : Text) :
    scanString distance read (Text.byte '"' :: rest) =
      .token (.string read.reverse) (distance + 1) := by
  rw [scanString.eq_def]
  exact if_pos rfl

/-- A byte of a string, escaped or not, is read back. -/
theorem scanString_escapeByte (distance : Nat) (read : Text) (c : UInt8) (rest : Text) :
    scanString distance read (escapeByte c ++ rest) =
      scanString (distance + (escapeByte c).length) (c :: read) rest := by
  unfold escapeByte
  split
  · next h =>
    have hmark : (decide (c = Text.byte '"') || decide (c = Text.byte '\\')) = true := by
      rwa [Bool.or_comm]
    show scanString distance read (Text.byte '\\' :: c :: rest) = _
    rw [scanString.eq_def]
    exact (if_neg (by decide)).trans ((if_pos rfl).trans (if_pos hmark))
  · next h =>
    simp only [Bool.or_eq_true, decide_eq_true_eq, not_or] at h
    show scanString distance read (c :: rest) = _
    rw [scanString.eq_def]
    exact (if_neg h.2).trans (if_neg h.1)

/-- An escaped text in front of a quotation mark is read as that text. -/
theorem scanString_escaped (t : Text) (distance : Nat) (read rest : Text) :
    scanString distance read (t.flatMap escapeByte ++ Text.byte '"' :: rest) =
      .token (.string (read.reverse ++ t)) (distance + (t.flatMap escapeByte).length + 1) := by
  induction t generalizing distance read with
  | nil => rw [List.append_nil]; exact scanString_close distance read rest
  | cons c t ih =>
    rw [List.flatMap_cons, List.append_assoc, scanString_escapeByte, ih, List.reverse_cons,
      List.append_assoc, List.length_append, Nat.add_assoc distance]
    rfl

/-! ## Texts and the tokens they spell -/

/-- In front of `rest`, the text `t` is cut into the tokens `ls`. -/
def Spells (t : Text) (ls : List Lexeme) (rest : Text) : Prop :=
  ∀ offset, ∃ ts : List Token, ts.map Token.lexeme = ls ∧
    tokensFrom 0 offset (t ++ rest) =
      ts.foldr Tokens.cons (tokensFrom 0 (offset + t.length) rest)

/-- Bytes of a token that was found are passed over. -/
theorem tokensFrom_taken (t : Text) (offset : Nat) (rest : Text) :
    tokensFrom t.length offset (t ++ rest) = tokensFrom 0 (offset + t.length) rest := by
  induction t generalizing offset with
  | nil => rfl
  | cons c t ih =>
    rw [List.length_cons, List.cons_append, tokensFrom, ih, Nat.add_right_comm, Nat.add_assoc]

/-- Nothing spells nothing. -/
theorem spells_nil (rest : Text) : Spells [] [] rest := fun _ => ⟨[], rfl, rfl⟩

/-- Texts one behind the other spell their lexemes in order. -/
theorem Spells.append {t u rest : Text} {ls ms : List Lexeme} (ht : Spells t ls (u ++ rest))
    (hu : Spells u ms rest) : Spells (t ++ u) (ls ++ ms) rest := by
  intro offset
  obtain ⟨ts, hts, hcut⟩ := ht offset
  obtain ⟨us, hus, hcut'⟩ := hu (offset + t.length)
  refine ⟨ts ++ us, by rw [List.map_append, hts, hus], ?_⟩
  rw [List.append_assoc, hcut, hcut', List.foldr_append, List.length_append, Nat.add_assoc]

/-- What the scanner cuts off whole spells its lexeme. -/
theorem spells_token {c : UInt8} {more rest : Text} {l : Lexeme}
    (h : scan c (more ++ rest) = .token l (more.length + 1)) : Spells (c :: more) [l] rest := by
  intro offset
  refine ⟨[⟨l, offset⟩], rfl, ?_⟩
  rw [List.cons_append, tokensFrom, h]
  show Tokens.cons _ (tokensFrom more.length (offset + 1) (more ++ rest)) = _
  rw [tokensFrom_taken, Nat.add_right_comm]
  rfl

/-- A space spells nothing. -/
theorem spells_space {c : UInt8} (h : isSpace c = true) (rest : Text) : Spells [c] [] rest := by
  intro offset
  refine ⟨[], rfl, ?_⟩
  have hscan : scan c rest = .blank 1 := by rw [scan, if_pos h]
  rw [List.singleton_append, tokensFrom, hscan]
  rfl

theorem spells_spaces (n : Nat) (rest : Text) :
    Spells (List.replicate n (Text.byte ' ')) [] rest := by
  induction n with
  | zero => exact spells_nil rest
  | succ n ih => exact (spells_space (by decide) _).append ih

/-- A symbol spells itself if a delimiter follows. -/
theorem spells_symbol {t rest : Text} (h : isSymbol t = true) (hr : Delimits rest) :
    Spells t [.symbol t] rest := by
  cases t with
  | nil => cases h
  | cons c more => exact spells_token (scan_symbol h hr)

/-- An integer spells itself if a delimiter follows. -/
theorem spells_integer {t rest : Text} (h : isInteger t = true) (hr : Delimits rest) :
    Spells t [.integer t] rest := by
  cases t with
  | nil => cases h
  | cons c more => exact spells_token (scan_integer h hr)

/-- A string in quotation marks spells itself, whatever follows. -/
theorem spells_string (t rest : Text) : Spells (quoteString t) [.string t] rest := by
  have hscan : scan (Text.byte '"') (t.flatMap escapeByte ++ [Text.byte '"'] ++ rest) =
      .token (.string t) ((t.flatMap escapeByte ++ [Text.byte '"']).length + 1) := by
    rw [List.append_assoc, List.length_append]
    show scanString 1 [] (_ ++ Text.byte '"' :: rest) = _
    rw [scanString_escaped, Nat.add_comm 1]
    rfl
  exact spells_token hscan

theorem spells_ellipsis (rest : Text) : Spells "..." [.ellipsis] rest := by
  have hscan : scan (Text.byte '.') ([Text.byte '.', Text.byte '.'] ++ rest) =
      .token .ellipsis 3 := rfl
  exact spells_token hscan

/-- Punctuation starts nothing else. -/
theorem punctuation?_cases (c : UInt8) (h : (punctuation? c).isSome = true) :
    isSpace c = false ∧ c ≠ Text.byte ';' ∧ c ≠ Text.byte '"' ∧ isSymbolByte c = false := by
  revert c
  decide +kernel

/-- A punctuation mark spells itself, whatever follows. -/
theorem spells_punctuation {c : UInt8} {l : Lexeme} (h : punctuation? c = some l) (rest : Text) :
    Spells [c] [l] rest := by
  obtain ⟨hspace, hcomment, hquote, hsymbol⟩ :=
    punctuation?_cases c (Option.isSome_iff_exists.mpr ⟨l, h⟩)
  have hdots : ¬ (Text.ofString "...").isPrefixOf (c :: rest) = true := by
    intro hp
    obtain ⟨tail, htail⟩ := List.isPrefixOf_iff_prefix.mp hp
    rw [← (List.cons.inj htail).1] at hsymbol
    cases hsymbol
  have hinteger : ¬ startsInteger c rest = true := by
    intro hi
    rw [isSymbolByte_of_startsInteger hi] at hsymbol
    cases hsymbol
  have hscan : scan c ([] ++ rest) = .token l 1 := by
    simp only [scan, List.nil_append, hspace, hcomment, hquote, hsymbol, hdots, hinteger, h,
      if_false, Bool.false_eq_true]
  exact spells_token hscan

/-! ## Data -/

/-- A text that is cut into the tokens `ls` if a delimiter follows. -/
def Writes (t : Text) (ls : List Lexeme) : Prop := ∀ rest, Delimits rest → Spells t ls rest

theorem join_cons_cons (separator t u : Text) (us : List Text) :
    Text.join separator (t :: u :: us) = t ++ (separator ++ Text.join separator (u :: us)) := by
  rw [Text.join, List.append_assoc]
  exact List.cons_ne_nil u us

/-- Texts with a space between neighbours. -/
theorem writes_join {ts : List Text} {lss : List (List Lexeme)} (h : List.Forall₂ Writes ts lss) :
    Writes (Text.join " " ts) lss.flatten := by
  intro rest hr
  induction h with
  | nil => exact spells_nil rest
  | @cons t ls ts lss ht hts ih =>
    cases hts with
    | nil =>
      rw [List.flatten_cons, List.flatten_nil, List.append_nil]
      exact ht rest hr
    | @cons u ms us mss =>
      have hspace : Spells " " [] (Text.join " " (u :: us) ++ rest) :=
        spells_space (by decide) _
      rw [join_cons_cons, List.flatten_cons]
      exact (ht _ (delimits_cons (by decide) _)).append (hspace.append ih)

/-- A text between two marks. -/
theorem spells_enclosed {l r : UInt8} {left right : Lexeme} (hl : punctuation? l = some left)
    (hr : punctuation? r = some right) {t : Text} {ls : List Lexeme} (h : Writes t ls)
    (rest : Text) : Spells ([l] ++ t ++ [r]) (left :: ls ++ [right]) rest := by
  have hclosed : Spells (t ++ [r]) (ls ++ [right]) rest := by
    refine (h _ (delimits_cons ?_ _)).append (spells_punctuation hr rest)
    exact (punctuation?_cases r (Option.isSome_iff_exists.mpr ⟨_, hr⟩)).2.2.2
  rw [List.append_assoc]
  exact (spells_punctuation hl _).append hclosed

/-- The lexemes of items are those of each item. -/
theorem itemLexemes_eq (ds : List Datum) : itemLexemes ds = (ds.map lexemes).flatten := by
  induction ds with
  | nil => rw [itemLexemes]; rfl
  | cons d rest ih => rw [itemLexemes, ih]; rfl

/-- Entries between braces. -/
theorem spells_braced {entries : List Text} {ls : List Lexeme}
    (h : Writes (Text.join ", " entries) ls) (rest : Text) :
    Spells (braced entries) (Lexeme.leftBrace :: ls ++ [Lexeme.rightBrace]) rest :=
  spells_enclosed rfl rfl h rest

/-- A name and the value under it. -/
theorem writes_entry {key t : Text} {ls : List Lexeme} (hkey : isSymbol key = true)
    (h : Writes t ls) : Writes (key ++ ": " ++ t) (.symbol key :: .colon :: ls) := by
  intro rest hr
  have hcolon : Spells ": " [.colon] (t ++ rest) :=
    (spells_punctuation rfl _).append (spells_space (by decide) _)
  rw [List.append_assoc]
  exact (spells_symbol hkey (delimits_cons (by decide) _)).append (hcolon.append (h rest hr))

/-- The items of a list with its tags after the first. -/
theorem writes_withTags {items : List Text} {lss : List (List Lexeme)} {tags : List (Text × Datum)}
    (hitems : List.Forall₂ Writes items lss)
    (htags : Writes (Text.join ", " (renderEntries quoteString tags)) (entryLexemes tags)) :
    Writes (Text.join " " (withTags items (renderEntries quoteString tags)))
      (lss.head?.getD [] ++ tagLexemes tags ++ lss.tail.flatten) := by
  cases tags with
  | nil =>
    rw [renderEntries, tagLexemes, List.append_nil]
    have hjoin := writes_join hitems
    cases hitems with
    | nil => exact hjoin
    | cons => exact hjoin
  | cons entry more =>
    have hcaret : Writes ("^" ++ braced (renderEntries quoteString (entry :: more)))
        (tagLexemes (entry :: more)) := by
      intro rest _
      rw [tagLexemes]
      exact (spells_punctuation rfl _).append (spells_braced htags rest)
    have hne : (renderEntries quoteString (entry :: more)).isEmpty = false := by
      rw [renderEntries]
      rfl
    simp only [withTags, hne, Bool.false_eq_true, if_false]
    cases hitems with
    | nil =>
      have hjoin := writes_join (.cons hcaret .nil)
      rwa [List.flatten_cons] at hjoin
    | @cons t ls ts lss ht hts =>
      have hjoin := writes_join (.cons ht (.cons hcaret hts))
      rwa [List.flatten_cons, List.flatten_cons, ← List.append_assoc] at hjoin

mutual

/-- The text of a datum spells its lexemes, whatever follows. -/
theorem writes_renderWith (d : Datum) (hd : d.WellFormed) :
    Writes (renderWith quoteString d) d.lexemes := by
  intro rest hr
  match d, hd with
  | .symbol t, hd =>
    rw [renderWith, lexemes]
    exact spells_symbol hd hr
  | .integer t, hd =>
    rw [renderWith, lexemes]
    exact spells_integer hd hr
  | .string t, _ =>
    rw [renderWith, lexemes]
    exact spells_string t rest
  | .ellipsis, _ =>
    rw [renderWith, lexemes]
    exact spells_ellipsis rest
  | .list items tags, hd =>
    have hlist := spells_enclosed (show punctuation? (Text.byte '(') = some .leftParen from rfl)
      (show punctuation? (Text.byte ')') = some .rightParen from rfl)
      (writes_withTags (writes_renderItems items hd.1) (writes_renderEntries tags hd.2.1)) rest
    rw [renderWith]
    cases items with
    | nil =>
      rw [List.map_nil, List.tail_nil, List.flatten_nil, List.append_nil] at hlist
      rw [lexemes]
      exact hlist
    | cons first more =>
      rw [lexemes, itemLexemes_eq]
      exact hlist
  | .map entries, hd =>
    rw [renderWith, lexemes]
    exact spells_braced (writes_renderEntries entries hd) rest
  | .array items [], hd =>
    rw [renderWith, lexemes, itemLexemes_eq]
    exact spells_enclosed rfl rfl (writes_join (writes_renderItems items hd.1)) rest

/-- So do the texts of items. -/
theorem writes_renderItems (ds : List Datum) (hds : AllWellFormed ds) :
    List.Forall₂ Writes (renderItems quoteString ds) (ds.map lexemes) := by
  match ds, hds with
  | [], _ =>
    rw [renderItems]
    exact .nil
  | d :: rest, hds =>
    rw [renderItems]
    exact .cons (writes_renderWith d hds.1) (writes_renderItems rest hds.2)

/-- Keys, colons and values, with commas between them. -/
theorem writes_renderEntries (entries : List (Text × Datum)) (he : EntriesWellFormed entries) :
    Writes (Text.join ", " (renderEntries quoteString entries)) (entryLexemes entries) := by
  match entries, he with
  | [], _ =>
    rw [renderEntries, entryLexemes]
    exact fun rest _ => spells_nil rest
  | [(key, d)], he =>
    rw [renderEntries, renderEntries, entryLexemes]
    exact writes_entry he.1 (writes_renderWith d he.2.1)
  | (key, d) :: next :: more, he =>
    intro rest hr
    have hmore := writes_renderEntries (next :: more) he.2.2 rest hr
    have hcomma : ∀ t, Spells ", " [.comma] t := fun t =>
      (spells_punctuation rfl _).append (spells_space (by decide) t)
    have hentry := writes_entry he.1 (writes_renderWith d he.2.1)
    rw [renderEntries, entryLexemes]
    rw [renderEntries] at hmore ⊢
    rw [join_cons_cons]
    exact (hentry _ (delimits_cons (by decide) _)).append ((hcomma _).append hmore)

end

/-! ## Reading what was written -/

/-- A reader that takes the tokens of a text one after the other goes on with what follows. -/
theorem run_append {r next : Reader} {ts : List Token} (broken : Option ReadError)
    (more : List Token) (h : r.steps (ts.map Token.lexeme) = .ok next) :
    r.run broken (ts ++ more) = next.run broken more := by
  induction ts generalizing r with
  | nil =>
    cases h
    rfl
  | cons t rest ih =>
    obtain ⟨r', hstep, hrest⟩ := bind_eq_ok.mp h
    rw [List.cons_append, Reader.run, hstep]
    exact ih hrest

theorem tokens_foldr_cons (ts : List Token) (more : Tokens) :
    ts.foldr Tokens.cons more = ⟨ts ++ more.tokens, more.fault⟩ := by
  induction ts with
  | nil => rfl
  | cons t rest ih => rw [List.foldr_cons, ih]; rfl

/-- Outside of all open data, a reader that takes the tokens of some data has them read. -/
theorem steps_outermost {ds : List Datum} (hds : AllWellFormed ds) (done : List Datum) :
    Reader.steps ⟨done, []⟩ (itemLexemes ds) = .ok ⟨ds.reverse ++ done, []⟩ := by
  induction ds generalizing done with
  | nil =>
    rw [itemLexemes]
    rfl
  | cons d rest ih =>
    have hfirst : Reader.steps ⟨done, []⟩ d.lexemes = .ok ⟨d :: done, []⟩ :=
      Reader.steps_lexemes d hds.1 ⟨done, []⟩ (by intro f hf; cases hf)
    rw [itemLexemes, Reader.steps_append_ok hfirst, ih hds.2, List.reverse_cons,
      List.append_assoc]
    rfl

/-- A text that spells the tokens of some data is read as those data. -/
theorem parseAll_of_spells {t : Text} {ds : List Datum} (hds : AllWellFormed ds)
    (h : Spells t (itemLexemes ds) []) : parseAll t = .ok ds := by
  obtain ⟨ts, hts, hcut⟩ := h 0
  rw [List.append_nil, tokens_foldr_cons] at hcut
  have hsteps := steps_outermost hds []
  rw [← hts, List.append_nil] at hsteps
  simp only [parseAll, tokensOf, hcut, Reader.start, run_append _ _ hsteps]
  show Except.ok ds.reverse.reverse = _
  rw [List.reverse_reverse]

/-- A text that spells the tokens of a datum is read as that datum. -/
theorem parse_of_spells {t : Text} {d : Datum} (hd : d.WellFormed) (h : Spells t d.lexemes []) :
    parse t = .ok d := by
  have hone : itemLexemes [d] = d.lexemes := by
    rw [itemLexemes, itemLexemes, List.append_nil]
  have hall : parseAll t = .ok [d] := parseAll_of_spells ⟨hd, trivial⟩ (hone ▸ h)
  rw [parse, hall]
  rfl

/-- The text of a well-formed datum is read as that datum. -/
theorem parse_render {d : Datum} (hd : d.WellFormed) : parse d.render = .ok d :=
  parse_of_spells hd (writes_renderWith d hd [] delimits_nil)

theorem writes_map_render {ds : List Datum} (h : ∀ d ∈ ds, d.WellFormed) :
    List.Forall₂ Writes (ds.map render) (ds.map lexemes) := by
  rw [List.forall₂_map_left_iff, List.forall₂_map_right_iff, List.forall₂_same]
  exact fun d hd => writes_renderWith d (h d hd)

/-- The texts of well-formed data, with a space between neighbours, are read as those data. -/
theorem parseAll_join_of_wellFormed {ds : List Datum} (hds : AllWellFormed ds) :
    parseAll (Text.join " " (ds.map render)) = .ok ds := by
  refine parseAll_of_spells hds ?_
  rw [itemLexemes_eq]
  exact writes_join (writes_map_render (allWellFormed_iff.mp hds)) [] delimits_nil

/-- **Reading and writing again.** Whatever text some data were read from, their own texts, with a
space between neighbours, are read as the same data. -/
theorem parseAll_join_render {t : Text} {ds : List Datum} (h : parseAll t = .ok ds) :
    parseAll (Text.join " " (ds.map render)) = .ok ds :=
  parseAll_join_of_wellFormed (allWellFormed_of_parseAll h)

/-- Tags before the first item, a tag that is given twice, a key that stands twice, a sign, a number
next to a symbol, empty data, dots and a string with both escaped bytes. -/
def mixedText : Text :=
  "(^\x7ba: 1\x7d ^\x7bb: -, a: ()\x7d f)\x7bk: [+7x], k: []\x7d...\"\\\\\\\"\""

/-- The datum is rendered in another order, with spaces and with each tag once. -/
theorem parseAll_join_render_mixedText :
    ∃ ds, parseAll mixedText = .ok ds ∧
      parseAll "(f ^\x7ba: (), b: -\x7d) \x7bk: [+7 x], k: []\x7d ... \"\\\\\\\"\"" = .ok ds := by
  have htext : (parseAll mixedText).toOption.map (fun ds => Text.join " " (ds.map render)) =
      some "(f ^\x7ba: (), b: -\x7d) \x7bk: [+7 x], k: []\x7d ... \"\\\\\\\"\"" := by
    decide +kernel
  obtain ⟨ds, hds, hjoin⟩ := toOption_map_eq_some.mp htext
  exact ⟨ds, hds, hjoin ▸ parseAll_join_render hds⟩

end Datum

namespace Layout

open Datum

/-- A list without tags. -/
theorem lexemes_form (items : List Datum) :
    (Datum.form items).lexemes = Lexeme.leftParen :: itemLexemes items ++ [Lexeme.rightParen] := by
  cases items with
  | nil => rw [form, lexemes, tagLexemes, itemLexemes]
  | cons first rest =>
    rw [form, lexemes, tagLexemes, itemLexemes, List.append_nil, List.cons_append, List.cons_append]

theorem itemLexemes_append (ds es : List Datum) :
    itemLexemes (ds ++ es) = itemLexemes ds ++ itemLexemes es := by
  simp only [itemLexemes_eq, List.map_append, List.flatten_append]

theorem newline_delimits : isSymbolByte Text.newline = false := by decide

mutual

/-- A form that is laid out over lines spells the same tokens. -/
theorem spells_textAt (depth : Nat) (layout : Layout) (h : layout.datum.WellFormed)
    (rest : Text) : Spells (layout.textAt depth) layout.datum.lexemes rest := by
  match layout, h with
  | .line d, h =>
    have hend : Spells "\n" [] rest := spells_space (by decide) rest
    have hd : Writes d.render d.lexemes := writes_renderWith d h
    rw [textAt, List.append_assoc]
    have hform := (hd _ (delimits_cons (by decide) _)).append hend
    rw [List.append_nil] at hform
    exact (spells_spaces _ _).append hform
  | .block head body, h =>
    rw [datum] at h ⊢
    have hwf := allWellFormed_iff.mp h.1
    have hhead : Writes (Text.join " " (head.map Datum.render)) (itemLexemes head) := by
      rw [itemLexemes_eq]
      exact writes_join (writes_map_render fun d hd => hwf d (List.mem_append_left _ hd))
    have hbody := spells_textsAt (depth + 1) body
      (allWellFormed_iff.mpr fun d hd => hwf d (List.mem_append_right _ hd))
    have hspace : ∀ t, Spells "\n" [] t := spells_space (by decide)
    have hclose : Spells ")\n" [.rightParen] rest :=
      (spells_punctuation rfl _).append (hspace rest)
    rw [lexemes_form, itemLexemes_append, textAt]
    simp only [List.append_assoc, List.cons_append]
    refine (spells_spaces _ _).append ((spells_punctuation rfl _).append ?_)
    refine (hhead _ (delimits_cons newline_delimits _)).append ((hspace _).append ?_)
    exact (hbody _).append ((spells_spaces _ _).append hclose)

/-- Indented lines spell what their data do. -/
theorem spells_textsAt (depth : Nat) (body : List Layout) (h : AllWellFormed (data body))
    (rest : Text) : Spells (textsAt depth body) (itemLexemes (data body)) rest := by
  match body, h with
  | [], _ =>
    rw [textsAt, data, itemLexemes]
    exact spells_nil rest
  | layout :: more, h =>
    rw [data] at h ⊢
    rw [textsAt, itemLexemes]
    exact (spells_textAt depth layout h.1 _).append (spells_textsAt depth more h.2 rest)

end

/-- The text of a form is read as that form. -/
theorem parse_text {layout : Layout} (h : layout.datum.WellFormed) :
    Datum.parse layout.text = .ok layout.datum :=
  parse_of_spells h (spells_textAt 0 layout h [])

end Layout

end WatCompiler
