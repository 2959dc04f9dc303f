import WatCompiler.Proofs.Token.Located

/-!
# The line structure of tokens

Which tokens can follow each other. A `Reading` goes through the sorts of tokens from left to right.
It remembers the last sort and how many indentations are open, and it refuses a sort that cannot
come next: a line ends only behind something that stands in it, and the indentation changes, or the
input ends, only between lines.

The lexer keeps such a reading itself (`Lexer.reading`). One step goes on from its reading to the
one after the tokens that were found (`follow?_of_step`), since the lexer measures a margin only
between lines (`Settled`). So the tokens of a whole source are read to the end, where every
indentation is closed (`run_closes`). What that says about neighbours and about the number of
indentations is read off the readings alone (`Reading.isChain_of_follow?`,
`Reading.depth_of_follow?`).
-/

namespace WatCompiler

namespace Token

/-- How far the sorts of tokens were read: the last one, and the number of open indentations. -/
structure Reading where
  last : Option Kind
  depth : Nat
deriving DecidableEq, Repr

namespace Reading

/-- Goes on over one sort, unless it cannot come next. -/
def next? (r : Reading) : Kind → Option Reading
  | .newline => if betweenLines r.last then none else some ⟨some .newline, r.depth⟩
  | .indent => if betweenLines r.last then some ⟨some .indent, r.depth + 1⟩ else none
  | .dedent =>
    if betweenLines r.last ∧ 0 < r.depth then some ⟨some .dedent, r.depth - 1⟩ else none
  | .endOfInput => if betweenLines r.last then some ⟨some .endOfInput, r.depth⟩ else none
  | kind => some ⟨some kind, r.depth⟩

/-- Goes on over the sorts of tokens. -/
def follow? (r : Reading) : List Token → Option Reading
  | [] => some r
  | t :: ts => (r.next? t.kind).bind fun next => next.follow? ts

variable {r r' : Reading} {ts : List Token}

theorem follow?_append (r : Reading) (ts us : List Token) :
    r.follow? (ts ++ us) = (r.follow? ts).bind fun next => next.follow? us := by
  induction ts generalizing r with
  | nil => rfl
  | cons t ts ih =>
    rw [List.cons_append, follow?, follow?]
    cases r.next? t.kind with
    | none => rfl
    | some next => exact ih next

/-- What one sort tells about the one before it, and what it does to the indentations. -/
theorem next?_eq_some {kind : Kind} (h : r.next? kind = some r') :
    r'.last = some kind ∧ (kind = .newline → betweenLines r.last = false) ∧
      (kind ∈ [Kind.indent, .dedent, .endOfInput] → betweenLines r.last = true) ∧
      r'.depth + [kind].count .dedent = r.depth + [kind].count .indent := by
  cases kind with
  | newline =>
    rw [next?] at h
    split at h
    · cases h
    · next hline =>
      cases h
      exact ⟨rfl, fun _ => Bool.eq_false_iff.mpr hline, by simp, rfl⟩
  | indent | endOfInput =>
    rw [next?] at h
    split at h
    · next hbetween =>
      cases h
      exact ⟨rfl, nofun, fun _ => hbetween, rfl⟩
    · cases h
  | dedent =>
    rw [next?] at h
    split at h
    · next hboth =>
      cases h
      exact ⟨rfl, nofun, fun _ => hboth.1, Nat.sub_add_cancel hboth.2⟩
    · cases h
  | ident | int | string | keyword | op =>
    cases h
    exact ⟨rfl, nofun, by simp, by simp⟩

/-- Tokens that close as many indentations between lines. -/
theorem follow?_dedents {α : Type} {t : Token} (ht : t.kind = .dedent) (closed : List α)
    (hr : betweenLines r.last = true) (hdepth : closed.length ≤ r.depth) :
    r.follow? (closed.map fun _ => t) =
      some ⟨if closed.isEmpty then r.last else some .dedent, r.depth - closed.length⟩ := by
  induction closed generalizing r with
  | nil => rfl
  | cons width rest ih =>
    rw [List.length_cons] at hdepth
    have hnext : r.next? t.kind = some ⟨some .dedent, r.depth - 1⟩ := by
      rw [ht, next?, if_pos ⟨hr, by omega⟩]
    have hrest := ih (r := ⟨some .dedent, r.depth - 1⟩) rfl (by show _ ≤ r.depth - 1; omega)
    rw [List.map_cons, follow?, hnext, Option.bind_some, hrest, List.length_cons]
    congr 2
    · cases rest <;> rfl
    · show r.depth - 1 - rest.length = r.depth - (rest.length + 1)
      omega

/-! ## What can be read -/

/-- Tokens that were read open as many indentations as they close, up to those that are left. -/
theorem depth_of_follow? (h : r.follow? ts = some r') :
    r'.depth + (ts.map Token.kind).count .dedent = r.depth + (ts.map Token.kind).count .indent := by
  induction ts generalizing r with
  | nil =>
    cases h
    rfl
  | cons t ts ih =>
    rw [follow?, Option.bind_eq_some_iff] at h
    obtain ⟨next, hnext, hrest⟩ := h
    obtain ⟨-, -, -, hdepth⟩ := next?_eq_some hnext
    have hbalance := ih hrest
    rw [List.map_cons, ← List.singleton_append, List.count_append, List.count_append]
    omega

/-- The tokens before a place close no indentation that was not open. -/
theorem count_le_of_follow? (h : r.follow? ts = some r') {front : List Token}
    (hfront : front <+: ts) :
    (front.map Token.kind).count .dedent ≤ r.depth + (front.map Token.kind).count .indent := by
  obtain ⟨rest, rfl⟩ := hfront
  rw [follow?_append, Option.bind_eq_some_iff] at h
  obtain ⟨middle, hmiddle, -⟩ := h
  have hbalance := depth_of_follow? hmiddle
  omega

/-- Where a line can end, and where it cannot. -/
def Neighbours (t u : Token) : Prop :=
  (u.kind = .newline → t.kind ∉ lineKinds) ∧
    (u.kind ∈ [Kind.indent, .dedent, .endOfInput] → t.kind ∈ lineKinds)

/-- Tokens that were read after the token `t` are neighbours of each other, and the first one of
`t`. -/
theorem isChain_of_follow? {t : Token} (ht : r.last = some t.kind) (h : r.follow? ts = some r') :
    (t :: ts).IsChain Neighbours := by
  induction ts generalizing r t with
  | nil => exact .singleton t
  | cons u ts ih =>
    rw [follow?, Option.bind_eq_some_iff] at h
    obtain ⟨next, hnext, hrest⟩ := h
    obtain ⟨hlast, hnewline, hbetween, -⟩ := next?_eq_some hnext
    rw [ht] at hnewline hbetween
    refine .cons_cons ⟨fun hu => ?_, fun hu => ?_⟩ (ih hlast hrest)
    · exact of_decide_eq_false (hnewline hu)
    · exact of_decide_eq_true (hbetween hu)

end Reading

end Token

namespace Lexer

open Token (Kind Reading betweenLines)

variable {source : Text} {l next : Lexer} {found : List Token} {c : UInt8} {after : Text}

/-- What the lexer remembers of the tokens so far. -/
def reading (l : Lexer) : Reading := ⟨l.last, l.indents.length⟩

/-- A margin is measured only between lines. -/
def Settled (l : Lexer) : Prop := l.atLineStart = true → betweenLines l.last = true

/-- Behind the end of a line the reading is between lines. -/
theorem follow?_lineEnd (l : Lexer) (n : Nat) :
    ∃ last, l.reading.follow? (l.lineEnd n) = some ⟨last, l.indents.length⟩ ∧
      betweenLines last = true := by
  rw [lineEnd_eq]
  by_cases hbetween : betweenLines l.last = true
  · rw [if_pos hbetween]
    exact ⟨l.last, rfl, hbetween⟩
  · rw [if_neg hbetween]
    refine ⟨some .newline, ?_, rfl⟩
    show (l.reading.next? .newline).bind _ = _
    rw [Reading.next?, reading, if_neg hbetween]
    rfl

theorem settled_of_atLineStart (hl : l.atLineStart = false) : l.Settled := fun hstart =>
  absurd (hl.symm.trans hstart) Bool.false_ne_true

/-- **One step reads on.** It goes from the reading of the lexer to the one behind the tokens that
it finds, and leaves the lexer settled. -/
theorem follow?_of_step (h : l.Settled) (hr : l.rest = c :: after)
    (hstep : l.step c = .ok (found, next)) :
    l.reading.follow? found = some next.reading ∧ next.Settled := by
  obtain ⟨passed, -, ⟨hl, hbegins⟩ | ⟨hl, hadvances⟩⟩ := exists_passed_of_step hr hstep
  · generalize next.rest = rest at hbegins
    cases hbegins with
    | margin | skipped => exact ⟨rfl, h⟩
    | opens =>
      refine ⟨?_, settled_of_atLineStart rfl⟩
      show (l.reading.next? .indent).bind _ = _
      rw [Reading.next?, reading, if_pos (h hl)]
      rfl
    | closes =>
      refine ⟨?_, settled_of_atLineStart rfl⟩
      -- The innermost indentations are closed, and the others stay.
      have hlength := congrArg List.length
        (List.takeWhile_append_dropWhile (p := (marginWidth passed < ·)) (l := l.indents))
      rw [List.length_append] at hlength
      rw [Reading.follow?_dedents rfl _ (h hl) (by show _ ≤ l.indents.length; omega)]
      congr 2
      show l.indents.length - _ = (l.indents.dropWhile (marginWidth passed < ·)).length
      omega
  · generalize next.rest = rest at hadvances
    cases hadvances with
    | blank | inside | comment | continuation => exact ⟨rfl, h⟩
    | lineEnd =>
      cases hbetween : betweenLines l.last with
      | true => exact ⟨rfl, fun _ => hbetween⟩
      | false =>
        refine ⟨?_, fun _ => rfl⟩
        show (l.reading.next? .newline).bind _ = _
        rw [Reading.next?, reading, if_neg (Bool.eq_false_iff.mp hbetween)]
        rfl
    | @lexeme x hx =>
      obtain ⟨kind, text, tight⟩ := x
      refine ⟨?_, settled_of_atLineStart hl⟩
      cases hx <;> rfl

/-! ## Whole sources -/

/-- The token that ends a source. -/
def endToken (source : Text) : Token := ⟨.endOfInput, [], source.length, source.length⟩

/-- The tokens from `l` on are read to the end, where every indentation is closed. -/
def Closes (source : Text) (l : Lexer) : Except Failure (List Token) → Prop
  | .ok ts =>
    l.reading.follow? ts = some ⟨some .endOfInput, 0⟩ ∧ ts.getLast? = some (endToken source)
  | .error _ => True

theorem finish_closes (h : Follows source l) (hr : l.rest = []) : l.Closes source l.finish := by
  unfold finish
  split
  · trivial
  · refine ⟨?_, ?_⟩
    · obtain ⟨last, hread, hbetween⟩ := follow?_lineEnd l 0
      rw [Reading.follow?_append, Reading.follow?_append, hread, Option.bind_some,
        Reading.follow?_dedents rfl _ hbetween (Nat.le_refl _), Option.bind_some, Nat.sub_self,
        Reading.follow?]
      -- Also behind closed indentations the reading is between lines.
      have hagain : betweenLines (if l.indents.isEmpty then last else some .dedent) = true := by
        cases l.indents with
        | nil => exact hbetween
        | cons => rfl
      show (Reading.next? ⟨_, 0⟩ .endOfInput).bind _ = _
      rw [Reading.next?, if_pos hagain]
      rfl
    · have hlength := h.length
      rw [hr, List.length_nil, Nat.add_zero] at hlength
      rw [List.getLast?_concat, endToken, ← hlength, token, hr]
      rfl

theorem run_closes (hf : Follows source l) (h : l.Settled) : l.Closes source l.run := by
  -- By induction on what every step makes smaller.
  induction hn : l.remaining using Nat.strongRecOn generalizing l with
  | ind n ih =>
    cases hr : l.rest with
    | nil =>
      rw [run_nil hr]
      exact finish_closes hf hr
    | cons c after =>
      rw [run_cons hr]
      cases hstep : l.step c with
      | error failure => trivial
      | ok progress =>
        obtain ⟨found, next⟩ := progress
        have hfinds := finds_of_step hf hr hstep
        obtain ⟨hfound, hnext⟩ := follow?_of_step h hr hstep
        have hrest := ih _ (hn ▸ step_remaining_lt hstep hr) hfinds.follows hnext rfl
        show l.Closes source (next.run.map (found ++ ·))
        cases hrun : next.run with
        | error failure => trivial
        | ok ts =>
          rw [hrun] at hrest
          obtain ⟨hread, hlast⟩ := hrest
          refine ⟨?_, ?_⟩
          · rw [Reading.follow?_append, hfound]
            exact hread
          · rw [List.getLast?_append, hlast]
            rfl

end Lexer

/-! ## The tokens of a source -/

theorem Token.InOrder.of_mem {start stop : Nat} {ts : List Token} (h : InOrder start ts stop)
    {t : Token} (ht : t ∈ ts) : t.start ≤ t.stop ∧ t.stop ≤ stop := by
  obtain ⟨before, after, rfl⟩ := List.append_of_mem ht
  obtain ⟨middle, -, -, hle, hafter⟩ := inOrder_append.mp h
  exact ⟨hle, hafter.le⟩

theorem Token.InOrder.isChain {start stop : Nat} {ts : List Token} (h : InOrder start ts stop) :
    ts.IsChain fun t u => t.stop ≤ u.start := by
  induction ts generalizing start with
  | nil => exact .nil
  | cons t ts ih =>
    obtain ⟨-, -, hrest⟩ := h
    cases ts with
    | nil => exact .singleton t
    | cons u ts => exact .cons_cons hrest.1 (ih hrest)

/-- The tokens are those of a source: each is spelled as the source is where it stands, they stand
one behind the other, and they show lines and indentations as such. -/
structure Token.IsStream (source : Text) (ts : List Token) : Prop where
  /-- A token is the stretch of the source that it takes. -/
  text : ∀ t ∈ ts, t.text = source.slice t.start t.stop
  within : ∀ t ∈ ts, t.start ≤ t.stop ∧ t.stop ≤ source.length
  /-- Each token ends before the next one starts. -/
  inOrder : ts.IsChain fun t u => t.stop ≤ u.start
  /-- The last token ends the input, at the end of the source, and no other one does. -/
  ends : ∃ (front : List Token) (last : Token), ts = front ++ [last] ∧ last.kind = .endOfInput ∧
    last.start = source.length ∧ last.stop = source.length ∧ ∀ t ∈ front, t.kind ≠ .endOfInput
  /-- No indentation is closed before it is opened. -/
  nested : ∀ front, front <+: ts →
    (front.map Token.kind).count .dedent ≤ (front.map Token.kind).count .indent
  closed : (ts.map Token.kind).count .dedent = (ts.map Token.kind).count .indent
  first : ∀ t ∈ ts.head?, t.kind ≠ .newline
  /-- A line ends once. -/
  newline : ts.IsChain fun t u => u.kind = .newline → t.kind ∉ [Kind.newline, .indent, .dedent]
  /-- A line ends before anything that is not part of a line. -/
  word : ts.IsChain fun t u => u.kind ∈ [Kind.indent, .dedent, .endOfInput] →
    t.kind ∈ [Kind.newline, .indent, .dedent]

/-- **The tokens of a source show its lines and indentations.** -/
theorem isStream_of_tokenize {source : Text} {ts : List Token} (h : tokenize source = .ok ts) :
    Token.IsStream source ts := by
  have horder := inOrder_of_tokenize h
  have hcloses := Lexer.run_closes (Lexer.start_follows source) (fun _ => rfl)
  rw [mapError_eq_ok.mp h] at hcloses
  obtain ⟨hread, hlast⟩ := hcloses
  obtain ⟨front, last, rfl, -, -, hend, hfront⟩ := ends_of_tokenize h
  rw [List.getLast?_concat] at hlast
  cases hlast
  have hneighbours : (front ++ [Lexer.endToken source]).IsChain Token.Reading.Neighbours ∧
      ∀ t ∈ (front ++ [Lexer.endToken source]).head?, t.kind ≠ .newline := by
    generalize front ++ [Lexer.endToken source] = ts at hread
    cases ts with
    | nil => exact ⟨.nil, nofun⟩
    | cons t ts =>
      rw [Token.Reading.follow?, Option.bind_eq_some_iff] at hread
      obtain ⟨next, hnext, hrest⟩ := hread
      obtain ⟨hkind, hnewline, -, -⟩ := Token.Reading.next?_eq_some hnext
      refine ⟨Token.Reading.isChain_of_follow? hkind hrest, fun u hu hline => ?_⟩
      cases hu
      -- Nothing stands before the first token, so no line can end there.
      cases hnewline hline
  have hbalance := Token.Reading.depth_of_follow? hread
  exact {
    text := fun t ht => (standsIn_of_tokenize h t ht).text
    within := fun t ht => horder.of_mem ht
    inOrder := horder.isChain
    ends := ⟨front, _, rfl, rfl, rfl, rfl, hfront⟩
    nested := fun before hbefore => by
      have hle := Token.Reading.count_le_of_follow? hread hbefore
      rwa [show (Lexer.reading (Lexer.start source)).depth = 0 from rfl, Nat.zero_add] at hle
    closed := by
      rwa [show (Lexer.reading (Lexer.start source)).depth = 0 from rfl, Nat.zero_add,
        Nat.zero_add] at hbalance
    first := hneighbours.2
    newline := hneighbours.1.imp fun _ _ hboth => hboth.1
    word := hneighbours.1.imp fun _ _ hboth => hboth.2 }

/-- A line end inside brackets, a line that is a comment, and two indentations that close at
once. -/
def stepsSource : Text := "def f(a,\n b):\n  if a:\n    # no\n    b\n\nf\n"

theorem isStream_of_tokenize_stepsSource :
    ∃ ts, tokenize stepsSource = .ok ts ∧ ts.length = 22 ∧ Token.IsStream stepsSource ts := by
  have htokens : (tokenize stepsSource).toOption.map List.length = some 22 := by decide +kernel
  obtain ⟨ts, hts, hlength⟩ := toOption_map_eq_some.mp htokens
  exact ⟨ts, hts, hlength, isStream_of_tokenize hts⟩

end WatCompiler
