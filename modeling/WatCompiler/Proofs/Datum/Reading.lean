import WatCompiler.Proofs.Datum.WellFormed

/-!
# Reading the tokens of a datum

`lexemes` lists the tokens of a datum in the order in which they are written. A reader that takes
them one after the other ends up with the datum, put where the innermost open datum wants it
(`steps_lexemes`).
-/

namespace WatCompiler.Datum

mutual

/-- The tokens of a datum. The tags of a list stand after its first item. -/
def lexemes : Datum → List Lexeme
  | symbol t => [.symbol t]
  | string t => [.string t]
  | integer t => [.integer t]
  | ellipsis => [.ellipsis]
  | list [] tags => .leftParen :: tagLexemes tags ++ [.rightParen]
  | list (first :: rest) tags =>
    .leftParen :: lexemes first ++ tagLexemes tags ++ itemLexemes rest ++ [.rightParen]
  | map entries => .leftBrace :: entryLexemes entries ++ [.rightBrace]
  | array items _ => .leftBracket :: itemLexemes items ++ [.rightBracket]
  | foreign _ => []
termination_by d => sizeOf d
decreasing_by all_goals simp +arith

/-- The tokens of items. -/
def itemLexemes : List Datum → List Lexeme
  | [] => []
  | d :: rest => lexemes d ++ itemLexemes rest
termination_by ds => sizeOf ds
decreasing_by all_goals simp +arith

/-- The tokens of entries, with commas between them. -/
def entryLexemes : List (Text × Datum) → List Lexeme
  | [] => []
  | [(key, d)] => .symbol key :: .colon :: lexemes d
  | (key, d) :: next :: rest =>
    .symbol key :: .colon :: lexemes d ++ .comma :: entryLexemes (next :: rest)
termination_by entries => sizeOf entries
decreasing_by all_goals simp +arith

/-- The tokens of tags, if there are any. -/
def tagLexemes : List (Text × Datum) → List Lexeme
  | [] => []
  | entry :: rest => .caret :: .leftBrace :: entryLexemes (entry :: rest) ++ [.rightBrace]
termination_by entries => sizeOf entries + 1
decreasing_by exact Nat.lt_succ_self _

end

/-- A token that starts a datum. -/
def Lexeme.Starts : Lexeme → Prop
  | .symbol _ | .string _ | .integer _ | .ellipsis | .leftParen | .leftBrace | .leftBracket => True
  | _ => False

/-- An open datum that wants another one inside it. -/
def Frame.Wants : Frame → Prop
  | .list _ _ | .array _ | .map _ (.value _) | .tags _ (.value _) => True
  | _ => False

/-- An open datum that collects items. -/
def Frame.Collects : Frame → Prop
  | .list _ _ | .array _ => True
  | _ => False

theorem Frame.Collects.wants {f : Frame} (h : f.Collects) : f.Wants := by
  cases f with
  | list | array => trivial
  | _ => exact h.elim

/-- An open datum with some more items. -/
def Frame.addAll (ds : List Datum) : Frame → Frame
  | .list items given => .list (ds.reverse ++ items) given
  | .array items => .array (ds.reverse ++ items)
  | f => f

/-- The two kinds of open data that have entries. -/
inductive Frame.Braces : (List (Text × Datum) → Slot → Frame) → Prop
  | map : Braces .map
  | tags : Braces .tags

namespace Reader

/-- Takes tokens one after the other. -/
def steps (r : Reader) : List Lexeme → Except ReadFault Reader
  | [] => .ok r
  | l :: rest => do
    let r ← r.step l
    r.steps rest

/-- Reading goes on with what the first lexemes left. -/
theorem steps_append (r : Reader) (ls more : List Lexeme) :
    r.steps (ls ++ more) = r.steps ls >>= fun r => r.steps more := by
  induction ls generalizing r with
  | nil => rfl
  | cons l rest ih =>
    rw [List.cons_append, steps, steps]
    cases r.step l with
    | error fault => rfl
    | ok next => exact ih next

theorem steps_cons {r next : Reader} {l : Lexeme} {ls : List Lexeme} (h : r.step l = .ok next) :
    r.steps (l :: ls) = next.steps ls := by
  rw [steps, h]
  rfl

theorem steps_append_ok {r next : Reader} {ls more : List Lexeme} (h : r.steps ls = .ok next) :
    r.steps (ls ++ more) = next.steps more := by
  rw [steps_append, h]
  rfl

/-- A reader that wants a datum. -/
def Wants (r : Reader) : Prop := ∀ f ∈ r.frames.head?, f.Wants

/-- The first token of a datum that the reader wants. -/
theorem steps_start {r next : Reader} (hr : r.Wants) (l : Lexeme) (hl : l.Starts)
    (hnext : r.datum l = .ok next) (ls : List Lexeme) : r.steps (l :: ls) = next.steps ls := by
  refine steps_cons (Eq.trans ?_ hnext)
  obtain ⟨done, frames⟩ := r
  cases frames with
  | nil => cases l <;> first | rfl | exact hl.elim
  | cons f below =>
    have hf : f.Wants := hr f rfl
    cases f with
    | list items tags => cases l <;> first | rfl | exact hl.elim
    | array items => cases l <;> first | rfl | exact hl.elim
    | caret => exact hf.elim
    | map entries slot =>
      cases slot with
      | value key => rfl
      | _ => exact hf.elim
    | tags entries slot =>
      cases slot with
      | value key => rfl
      | _ => exact hf.elim

theorem wants_cons {done : List Datum} {f : Frame} {below : List Frame} (hf : f.Wants) :
    Wants ⟨done, f :: below⟩ := by
  intro g hg
  cases hg
  exact hf

/-- Tags under different names are kept as they are. -/
theorem setTags_nil {entries : List (Text × Datum)} (h : (Table.names entries).Nodup) :
    setTags [] entries = entries := by
  have go : ∀ (entries tags : List (Text × Datum)), (Table.names (tags ++ entries)).Nodup →
      setTags tags entries = tags ++ entries := by
    intro entries
    induction entries with
    | nil => intro tags _; exact (List.append_nil tags).symm
    | cons entry rest ih =>
      obtain ⟨key, d⟩ := entry
      intro tags hn
      have hkey : key ∉ Table.names tags := by
        rw [Table.names_append] at hn
        intro hmem
        exact (List.nodup_append.mp hn).2.2 key hmem key (by simp [Table.names]) rfl
      show setTags (Table.insert tags key d) rest = _
      rw [Table.insert_of_not_mem d hkey, ih]
      · rw [List.append_assoc]
        rfl
      · rw [List.append_assoc]
        exact hn
  exact go entries [] h

/-- A datum joins the innermost list. -/
theorem put_collects {done : List Datum} {f : Frame} (hf : f.Collects) (below : List Frame)
    (d : Datum) : put ⟨done, f :: below⟩ d = ⟨done, f.addAll [d] :: below⟩ := by
  cases f with
  | list items tags => rfl
  | array items => rfl
  | _ => exact hf.elim

theorem addAll_addAll (f : Frame) (d : Datum) (ds : List Datum) :
    (f.addAll [d]).addAll ds = f.addAll (d :: ds) := by
  cases f <;> simp [Frame.addAll]

mutual

/-- A reader that wants a datum and takes the tokens of one has that datum in its place. -/
theorem steps_lexemes (d : Datum) (hd : d.WellFormed) (r : Reader) (hr : r.Wants) :
    r.steps d.lexemes = .ok (r.put d) := by
  match d, hd with
  | .symbol t, _ => rw [lexemes, steps_start hr (.symbol t) trivial rfl, steps]
  | .string t, _ => rw [lexemes, steps_start hr (.string t) trivial rfl, steps]
  | .integer t, _ => rw [lexemes, steps_start hr (.integer t) trivial rfl, steps]
  | .ellipsis, _ => rw [lexemes, steps_start hr .ellipsis trivial rfl, steps]
  | .list [] tags, hd =>
    have htags := steps_tagLexemes tags hd.2.1 hd.2.2 r.done [] r.frames
    rw [lexemes, List.cons_append, steps_start hr .leftParen trivial rfl]
    exact steps_append_ok htags
  | .list (first :: rest) tags, hd =>
    have hfirst := steps_lexemes first hd.1.1 (r.enter (.list [] [])) (wants_cons trivial)
    have htags := steps_tagLexemes tags hd.2.1 hd.2.2 r.done [first] r.frames
    have hrest := steps_itemLexemes rest hd.1.2 r.done (.list [first] tags) trivial r.frames
    simp only [lexemes, List.cons_append, List.append_assoc]
    rw [steps_start hr .leftParen trivial rfl, steps_append_ok hfirst]
    refine (steps_append_ok htags).trans ((steps_append_ok hrest).trans ?_)
    show Except.ok (put r (.list (rest.reverse ++ [first]).reverse tags)) = _
    rw [List.reverse_append, List.reverse_reverse]
    rfl
  | .map [], _ =>
    rw [lexemes, List.cons_append, steps_start hr .leftBrace trivial rfl, entryLexemes]
    rfl
  | .map (entry :: rest), hd =>
    have hentries := steps_entryLexemes (entry :: rest) hd (List.cons_ne_nil _ _) Frame.Braces.map
      r.done [] r.frames
    rw [lexemes, List.cons_append, steps_start hr .leftBrace trivial rfl]
    refine (steps_append_ok hentries).trans ?_
    show Except.ok (put r (.map ((entry :: rest).reverse ++ []).reverse)) = _
    rw [List.append_nil, List.reverse_reverse]
  | .array items [], hd =>
    have hitems := steps_itemLexemes items hd.1 r.done (.array []) trivial r.frames
    rw [lexemes, List.cons_append, steps_start hr .leftBracket trivial rfl]
    refine (steps_append_ok hitems).trans ?_
    show Except.ok (put r (.array (items.reverse ++ []).reverse [])) = _
    rw [List.append_nil, List.reverse_reverse]
termination_by sizeOf d
decreasing_by all_goals simp +arith

/-- The items of a list are read one after another into its frame. -/
theorem steps_itemLexemes (ds : List Datum) (hds : AllWellFormed ds) (done : List Datum)
    (f : Frame) (hf : f.Collects) (below : List Frame) :
    steps ⟨done, f :: below⟩ (itemLexemes ds) = .ok ⟨done, f.addAll ds :: below⟩ := by
  match ds, hds with
  | [], _ =>
    rw [itemLexemes, steps]
    cases f <;> rfl
  | d :: rest, hds =>
    have hwants : Wants ⟨done, f :: below⟩ := wants_cons hf.wants
    have hfirst := steps_lexemes d hds.1 ⟨done, f :: below⟩ hwants
    rw [put_collects hf] at hfirst
    have hcollects : (f.addAll [d]).Collects := by cases f <;> exact hf
    have hrest := steps_itemLexemes rest hds.2 done (f.addAll [d]) hcollects below
    rw [itemLexemes, steps_append_ok hfirst, hrest, addAll_addAll]
termination_by sizeOf ds
decreasing_by all_goals simp +arith

/-- Entries between braces are read in their order. -/
theorem steps_entryLexemes (entries : List (Text × Datum)) (he : EntriesWellFormed entries)
    (hne : entries ≠ []) {mk : List (Text × Datum) → Slot → Frame} (hmk : Frame.Braces mk)
    (done : List Datum) (read : List (Text × Datum)) (below : List Frame) :
    steps ⟨done, mk read .key :: below⟩ (entryLexemes entries) =
      .ok ⟨done, mk (entries.reverse ++ read) .separator :: below⟩ := by
  match entries, he with
  | [(key, d)], he =>
    have hvalue := steps_lexemes d he.2.1 ⟨done, mk read (.value key) :: below⟩
      (wants_cons (by cases hmk <;> trivial))
    rw [entryLexemes]
    cases hmk <;> exact (steps_cons rfl).trans ((steps_cons rfl).trans hvalue)
  | (key, d) :: next :: rest, he =>
    have hvalue := steps_lexemes d he.2.1 ⟨done, mk read (.value key) :: below⟩
      (wants_cons (by cases hmk <;> trivial))
    have hrest := steps_entryLexemes (next :: rest) he.2.2 (List.cons_ne_nil _ _) hmk done
      ((key, d) :: read) below
    rw [entryLexemes, List.reverse_cons, List.append_assoc]
    cases hmk <;>
      exact (steps_cons rfl).trans ((steps_cons rfl).trans
        ((steps_append_ok hvalue).trans ((steps_cons rfl).trans hrest)))
termination_by sizeOf entries
decreasing_by all_goals simp +arith

/-- Tags behind a list end up in its frame. -/
theorem steps_tagLexemes (entries : List (Text × Datum)) (he : EntriesWellFormed entries)
    (hn : (Table.names entries).Nodup) (done items : List Datum) (below : List Frame) :
    steps ⟨done, .list items [] :: below⟩ (tagLexemes entries) =
      .ok ⟨done, .list items entries :: below⟩ := by
  match entries, he with
  | [], _ => rw [tagLexemes, steps]
  | entry :: rest, he =>
    have hentries := steps_entryLexemes (entry :: rest) he (List.cons_ne_nil _ _)
      Frame.Braces.tags done [] (.list items [] :: below)
    rw [tagLexemes]
    refine (steps_cons rfl).trans ((steps_cons rfl).trans ((steps_append_ok hentries).trans ?_))
    show Except.ok (Reader.mk done
      (.list items (setTags [] ((entry :: rest).reverse ++ []).reverse) :: below)) = _
    rw [List.append_nil, List.reverse_reverse, setTags_nil hn]
termination_by sizeOf entries + 1
decreasing_by exact Nat.lt_succ_self _

end

end Reader

end WatCompiler.Datum
