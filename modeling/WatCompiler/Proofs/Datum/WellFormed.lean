import WatCompiler.Datum.Reader
import WatCompiler.Proofs.Basic

/-!
# Well-formed data

Data that have a written form: their symbols and integers are texts that are cut out as one token,
the tags of a list have different names, and there are no tags elsewhere. Main statement: what a
reader makes of a text is well formed (`wellFormed_of_parse`).
-/

namespace WatCompiler.Datum

/-- A text that is cut out as one symbol. -/
def isSymbol : Text → Bool
  | [] => false
  | c :: rest =>
    isSymbolByte c && rest.all isSymbolByte && !startsInteger c rest &&
      !(Text.ofString "...").isPrefixOf (c :: rest)

/-- A text that is cut out as one integer. -/
def isInteger : Text → Bool
  | [] => false
  | c :: rest => startsInteger c rest && rest.all Text.isDigit

mutual

/-- A datum that has a written form. -/
def WellFormed : Datum → Prop
  | symbol t => isSymbol t = true
  | integer t => isInteger t = true
  | string _ | ellipsis => True
  | list items tags =>
    AllWellFormed items ∧ EntriesWellFormed tags ∧ (Table.names tags).Nodup
  | map entries => EntriesWellFormed entries
  | array items tags => AllWellFormed items ∧ tags = []
  | foreign _ => False

/-- Data that have a written form. -/
def AllWellFormed : List Datum → Prop
  | [] => True
  | d :: rest => WellFormed d ∧ AllWellFormed rest

/-- Entries whose names and values have a written form. -/
def EntriesWellFormed : List (Text × Datum) → Prop
  | [] => True
  | (key, d) :: rest => isSymbol key = true ∧ WellFormed d ∧ EntriesWellFormed rest

end

theorem allWellFormed_iff {ds : List Datum} : AllWellFormed ds ↔ ∀ d ∈ ds, d.WellFormed := by
  induction ds with
  | nil => simp [AllWellFormed]
  | cons d rest ih => simp [AllWellFormed, ih]

theorem entriesWellFormed_iff {entries : List (Text × Datum)} :
    EntriesWellFormed entries ↔ ∀ e ∈ entries, isSymbol e.1 = true ∧ e.2.WellFormed := by
  induction entries with
  | nil => simp [EntriesWellFormed]
  | cons e rest ih =>
    obtain ⟨key, d⟩ := e
    simp only [EntriesWellFormed, ih, List.forall_mem_cons, and_assoc]

/-- The items of a well-formed datum are well formed. -/
theorem WellFormed.items {d : Datum} (h : d.WellFormed) : ∀ i ∈ d.items, i.WellFormed := by
  cases d with
  | list items tags => exact allWellFormed_iff.mp h.1
  | array items tags => exact allWellFormed_iff.mp h.1
  | map entries =>
    intro i hi
    obtain ⟨e, he, rfl⟩ := List.mem_map.mp hi
    exact (entriesWellFormed_iff.mp h e he).2
  | _ => simp [Datum.items]

theorem ne_nil_of_isSymbol {t : Text} (h : isSymbol t = true) : t ≠ [] := by
  rintro rfl
  cases h

/-! ## Tokens -/

/-- A token that stands in a text as it is. -/
def Lexeme.WellFormed : Lexeme → Prop
  | .symbol t => isSymbol t = true
  | .integer t => isInteger t = true
  | _ => True

/-- Every string is one that can be written. -/
theorem scanString_wellFormed {distance : Nat} {read rest : Text} {lexeme : Lexeme} {length : Nat}
    (h : scanString distance read rest = .token lexeme length) : lexeme.WellFormed := by
  fun_induction scanString distance read rest with
  | case2 => cases h; trivial
  | case4 _ _ _ _ _ _ ih => exact ih h
  | case6 _ _ _ _ _ _ ih => exact ih h
  | _ => cases h

theorem head?_takeWhile_of_imp {p q : UInt8 → Bool} (hpq : ∀ c, q c = true → p c = true)
    (t : Text) : ((t.takeWhile p).head?.map q).getD false = (t.head?.map q).getD false := by
  cases t with
  | nil => rfl
  | cons c rest =>
    by_cases hc : p c = true
    · simp [hc]
    · have hq : q c = false := by
        by_contra hq
        exact hc (hpq c (by simpa using hq))
      simp [hc, hq]

theorem isSymbolByte_of_isDigit (c : UInt8) (h : Text.isDigit c = true) :
    isSymbolByte c = true := by
  simp [isSymbolByte, h]

/-- Whether a text is an integer shows in its first two bytes, which a symbol keeps. -/
theorem startsInteger_takeWhile (c : UInt8) (rest : Text) :
    startsInteger c (rest.takeWhile isSymbolByte) = startsInteger c rest := by
  simp only [startsInteger, head?_takeWhile_of_imp isSymbolByte_of_isDigit]

theorem isPrefixOf_of_isPrefixOf_takeWhile {p : UInt8 → Bool} {dots t : Text}
    (h : dots.isPrefixOf (t.takeWhile p) = true) : dots.isPrefixOf t = true := by
  rw [List.isPrefixOf_iff_prefix] at h ⊢
  exact h.trans (List.takeWhile_prefix p)

/-- So is every punctuation mark. -/
theorem punctuation?_wellFormed {c : UInt8} {lexeme : Lexeme} (h : punctuation? c = some lexeme) :
    lexeme.WellFormed := by
  unfold punctuation? at h
  -- A case split on the whole chain is slow, so it is taken apart from the front.
  iterate 9
    rcases ite_eq_iff.mp h with ⟨-, h⟩ | ⟨-, h⟩
    · cases h
      trivial
  cases h

/-- Whatever the scanner cuts off can be written. -/
theorem scan_wellFormed {c : UInt8} {rest : Text} {lexeme : Lexeme} {length : Nat}
    (h : scan c rest = .token lexeme length) : lexeme.WellFormed := by
  simp only [scan] at h
  split at h
  · cases h
  split at h
  · cases h
  split at h
  · exact scanString_wellFormed h
  split at h
  · cases h; trivial
  next hdots =>
  split at h
  · next hint =>
    cases h
    have hstart : startsInteger c (rest.takeWhile Text.isDigit) = true := by
      simp only [startsInteger, head?_takeWhile_of_imp (fun _ h => h)] at hint ⊢
      exact hint
    have hall : (rest.takeWhile Text.isDigit).all Text.isDigit = true := List.all_takeWhile
    simp only [Lexeme.WellFormed, isInteger, hstart, hall, Bool.and_self]
  next hint =>
  split at h
  · next hc =>
    cases h
    have hall : (rest.takeWhile isSymbolByte).all isSymbolByte = true := List.all_takeWhile
    have hdots' : (Text.ofString "...").isPrefixOf (c :: rest.takeWhile isSymbolByte) = false := by
      by_contra hp
      refine hdots (isPrefixOf_of_isPrefixOf_takeWhile (p := isSymbolByte) ?_)
      rw [List.takeWhile_cons, if_pos hc]
      simpa using hp
    simp only [Lexeme.WellFormed, isSymbol, hc, hall, hdots', startsInteger_takeWhile,
      Bool.eq_false_iff.mpr hint, Bool.not_false, Bool.and_self]
  · split at h
    · next hp => cases h; exact punctuation?_wellFormed hp
    · cases h

/-- All tokens of a text stand in it as they are. -/
theorem tokensFrom_wellFormed (taken offset : Nat) (t : Text) :
    ∀ x ∈ (tokensFrom taken offset t).tokens, x.lexeme.WellFormed := by
  fun_induction tokensFrom taken offset t with
  | case1 => simp [Lexeme.WellFormed]
  | case2 _ _ _ _ ih => exact ih
  | case3 _ _ _ _ _ ih => exact ih
  | case4 offset c rest lexeme length h ih =>
    intro x hx
    rcases List.mem_cons.mp hx with rfl | hx
    · exact scan_wellFormed h
    · exact ih x hx
  | case5 => simp [Lexeme.WellFormed]

/-! ## Readers -/

/-- A slot whose name, if it has one, is a symbol. -/
def Slot.WellFormed : Slot → Prop
  | .colon name | .value name => isSymbol name = true
  | .key | .separator => True

/-- An open datum that holds only well-formed data. -/
def Frame.WellFormed : Frame → Prop
  | .list items given => AllWellFormed items ∧ EntriesWellFormed given ∧ (Table.names given).Nodup
  | .array items => AllWellFormed items
  | .map entries slot | .tags entries slot => EntriesWellFormed entries ∧ slot.WellFormed
  | .caret => True

/-- A reader that holds only well-formed data. -/
structure Reader.WellFormed (r : Reader) : Prop where
  done : AllWellFormed r.done
  frames : ∀ f ∈ r.frames, f.WellFormed

theorem allWellFormed_reverse {ds : List Datum} : AllWellFormed ds.reverse ↔ AllWellFormed ds := by
  simp only [allWellFormed_iff, List.mem_reverse]

theorem entriesWellFormed_reverse {entries : List (Text × Datum)} :
    EntriesWellFormed entries.reverse ↔ EntriesWellFormed entries := by
  simp only [entriesWellFormed_iff, List.mem_reverse]

/-- Setting a tag keeps the others as they are. -/
theorem entriesWellFormed_insert {tags : Table Datum} {key : Text} {d : Datum}
    (ht : EntriesWellFormed tags) (hk : isSymbol key = true) (hd : d.WellFormed) :
    EntriesWellFormed (Table.insert tags key d) := by
  induction tags with
  | nil => exact ⟨hk, hd, trivial⟩
  | cons entry rest ih =>
    obtain ⟨name, old⟩ := entry
    obtain ⟨hname, hold, hrest⟩ := ht
    rw [Table.insert]
    split
    · exact ⟨hname, hd, hrest⟩
    · exact ⟨hname, hold, ih hrest⟩

namespace Reader

/-- Setting tags one by one leaves each key once. -/
theorem setTags_wellFormed {entries : List (Text × Datum)} :
    ∀ {tags : Table Datum}, EntriesWellFormed tags → (Table.names tags).Nodup →
      EntriesWellFormed entries →
      EntriesWellFormed (setTags tags entries) ∧ (Table.names (setTags tags entries)).Nodup := by
  induction entries with
  | nil => intro tags ht hn _; exact ⟨ht, hn⟩
  | cons entry rest ih =>
    obtain ⟨key, d⟩ := entry
    intro tags ht hn he
    obtain ⟨hk, hd, hrest⟩ := he
    exact ih (entriesWellFormed_insert ht hk hd) (Table.nodup_names_insert key d hn) hrest

/-- A datum that is put where it belongs leaves a well-formed reader. -/
theorem put_wellFormed {r : Reader} {d : Datum} (h : r.WellFormed) (hd : d.WellFormed) :
    (r.put d).WellFormed := by
  obtain ⟨done, frames⟩ := r
  obtain ⟨hdone, hframes⟩ := h
  cases frames with
  | nil => exact ⟨⟨hd, hdone⟩, hframes⟩
  | cons f below =>
    have hf := hframes f (List.mem_cons_self ..)
    have hbelow : ∀ g ∈ below, g.WellFormed := fun g hg => hframes g (List.mem_cons_of_mem _ hg)
    cases f with
    | list items tags => exact ⟨hdone, List.forall_mem_cons.mpr ⟨⟨⟨hd, hf.1⟩, hf.2⟩, hbelow⟩⟩
    | array items => exact ⟨hdone, List.forall_mem_cons.mpr ⟨⟨hd, hf⟩, hbelow⟩⟩
    | caret => exact ⟨hdone, hframes⟩
    | map entries slot =>
      cases slot with
      | value key =>
        exact ⟨hdone, List.forall_mem_cons.mpr ⟨⟨⟨hf.2, hd, hf.1⟩, trivial⟩, hbelow⟩⟩
      | _ => exact ⟨hdone, hframes⟩
    | tags entries slot =>
      cases slot with
      | value key =>
        exact ⟨hdone, List.forall_mem_cons.mpr ⟨⟨⟨hf.2, hd, hf.1⟩, trivial⟩, hbelow⟩⟩
      | _ => exact ⟨hdone, hframes⟩

theorem enter_wellFormed {r : Reader} {f : Frame} (h : r.WellFormed) (hf : f.WellFormed) :
    (r.enter f).WellFormed := ⟨h.done, List.forall_mem_cons.mpr ⟨hf, h.frames⟩⟩

/-- A lexeme that is a datum or starts one. -/
theorem datum_wellFormed {r r' : Reader} {found : Lexeme} (h : r.WellFormed)
    (hfound : found.WellFormed) (hr : r.datum found = .ok r') : r'.WellFormed := by
  cases found with
  | symbol t => cases hr; exact put_wellFormed h hfound
  | string t => cases hr; exact put_wellFormed h trivial
  | integer t => cases hr; exact put_wellFormed h hfound
  | ellipsis => cases hr; exact put_wellFormed h trivial
  | leftParen => cases hr; exact enter_wellFormed h ⟨trivial, trivial, List.nodup_nil⟩
  | leftBrace => cases hr; exact enter_wellFormed h ⟨trivial, trivial⟩
  | leftBracket => cases hr; exact enter_wellFormed h trivial
  | _ => cases hr

/-- A lexeme inside of a map or of tags. -/
theorem nextSlot_wellFormed {slot next : Slot} {found : Lexeme} (h : slot.WellFormed)
    (hfound : found.WellFormed) (hn : nextSlot slot found = .ok (some next)) :
    next.WellFormed := by
  cases slot with
  | key =>
    cases found with
    | symbol key => cases hn; exact hfound
    | _ => cases hn
  | colon key =>
    cases found with
    | colon => cases hn; exact h
    | _ => cases hn
  | separator =>
    cases found with
    | comma => cases hn; trivial
    | _ => cases hn
  | value key => cases found <;> cases hn

/-- The end of tags. -/
theorem closeTags_wellFormed {r : Reader} {entries : List (Text × Datum)} {below : List Frame}
    (hdone : AllWellFormed r.done) (he : EntriesWellFormed entries)
    (hbelow : ∀ g ∈ below, g.WellFormed) : (r.closeTags entries below).WellFormed := by
  unfold closeTags
  split
  · next items tags below =>
    obtain ⟨hlist, hrest⟩ := List.forall_mem_cons.mp hbelow
    have hset := setTags_wellFormed hlist.2.1 hlist.2.2 (entriesWellFormed_reverse.mpr he)
    exact ⟨hdone, List.forall_mem_cons.mpr ⟨⟨hlist.1, hset⟩, hrest⟩⟩
  · exact ⟨hdone, hbelow⟩

/-- Each step leaves a well-formed reader. -/
theorem step_wellFormed {r r' : Reader} {found : Lexeme} (h : r.WellFormed)
    (hfound : found.WellFormed) (hr : r.step found = .ok r') : r'.WellFormed := by
  obtain ⟨done, frames⟩ := r
  cases frames with
  | nil =>
    simp only [step] at hr
    split at hr
    · cases hr; exact h
    · exact datum_wellFormed h hfound hr
  | cons f below =>
    have hf := h.frames f (List.mem_cons_self ..)
    have hbelow : ∀ g ∈ below, g.WellFormed := fun g hg => h.frames g (List.mem_cons_of_mem _ hg)
    have hr' : Reader.WellFormed ⟨done, below⟩ := ⟨h.done, hbelow⟩
    cases f with
    | list items tags =>
      simp only [step] at hr
      split at hr
      · cases hr
        exact put_wellFormed hr' ⟨allWellFormed_reverse.mpr hf.1, hf.2⟩
      · cases hr; exact enter_wellFormed h trivial
      · cases hr
      · exact datum_wellFormed h hfound hr
    | array items =>
      simp only [step] at hr
      split at hr
      · cases hr
        exact put_wellFormed hr' ⟨allWellFormed_reverse.mpr hf, rfl⟩
      · cases hr
      · exact datum_wellFormed h hfound hr
    | caret =>
      simp only [step] at hr
      split at hr
      · cases hr; exact ⟨h.done, List.forall_mem_cons.mpr ⟨⟨trivial, trivial⟩, hbelow⟩⟩
      · cases hr
    | map entries slot =>
      by_cases hv : ∃ key, slot = .value key
      · obtain ⟨key, rfl⟩ := hv
        exact datum_wellFormed h hfound hr
      · obtain ⟨next, hn, hrest⟩ : ∃ next, nextSlot slot found = .ok next ∧
            next.elim (put ⟨done, below⟩ (.map entries.reverse))
              (fun slot => ⟨done, .map entries slot :: below⟩) = r' := by
          cases slot with
          | value key => exact absurd ⟨key, rfl⟩ hv
          | _ =>
            obtain ⟨next, hn, hrest⟩ := bind_eq_ok.mp hr
            refine ⟨next, hn, ?_⟩
            cases next <;> exact pure_eq_ok.mp hrest
        cases next with
        | some next =>
          cases hrest
          exact ⟨h.done, List.forall_mem_cons.mpr
            ⟨⟨hf.1, nextSlot_wellFormed hf.2 hfound hn⟩, hbelow⟩⟩
        | none =>
          cases hrest
          exact put_wellFormed hr' (entriesWellFormed_reverse.mpr hf.1)
    | tags entries slot =>
      by_cases hv : ∃ key, slot = .value key
      · obtain ⟨key, rfl⟩ := hv
        exact datum_wellFormed h hfound hr
      · obtain ⟨next, hn, hrest⟩ : ∃ next, nextSlot slot found = .ok next ∧
            next.elim (closeTags ⟨done, .tags entries slot :: below⟩ entries below)
              (fun slot => ⟨done, .tags entries slot :: below⟩) = r' := by
          cases slot with
          | value key => exact absurd ⟨key, rfl⟩ hv
          | _ =>
            obtain ⟨next, hn, hrest⟩ := bind_eq_ok.mp hr
            refine ⟨next, hn, ?_⟩
            cases next <;> exact pure_eq_ok.mp hrest
        cases next with
        | some next =>
          cases hrest
          exact ⟨h.done, List.forall_mem_cons.mpr
            ⟨⟨hf.1, nextSlot_wellFormed hf.2 hfound hn⟩, hbelow⟩⟩
        | none =>
          cases hrest
          exact closeTags_wellFormed h.done hf.1 hbelow

/-- So does a run over well-formed lexemes. -/
theorem run_wellFormed {broken : Option ReadError} {ts : List Token} :
    ∀ {r r' : Reader}, r.WellFormed → (∀ t ∈ ts, t.lexeme.WellFormed) →
      r.run broken ts = .ok r' → r'.WellFormed := by
  induction ts with
  | nil => intro r r' h _ hr; cases hr; exact h
  | cons t rest ih =>
    intro r r' h hts hr
    obtain ⟨ht, hrest⟩ := List.forall_mem_cons.mp hts
    simp only [run] at hr
    split at hr
    · next next hstep => exact ih (step_wellFormed h ht hstep) hrest hr
    · cases hr

end Reader

/-- All data that are read from a text are well formed. -/
theorem allWellFormed_of_parseAll {t : Text} {ds : List Datum} (h : parseAll t = .ok ds) :
    AllWellFormed ds := by
  obtain ⟨r, hr, hds⟩ := bind_eq_ok.mp h
  have hstart : Reader.start.WellFormed := ⟨trivial, by simp [Reader.start]⟩
  have hwf := Reader.run_wellFormed hstart (tokensFrom_wellFormed 0 0 t) hr
  split at hds
  · cases hds
  · cases hds
    exact allWellFormed_reverse.mpr hwf.done

/-- A datum that is read from a text is well formed. -/
theorem wellFormed_of_parse {t : Text} {d : Datum} (h : parse t = .ok d) : d.WellFormed := by
  obtain ⟨ds, hds, hd⟩ := bind_eq_ok.mp h
  have hwf := allWellFormed_of_parseAll hds
  split at hd
  · cases hd
    exact hwf.1
  · cases hd

end WatCompiler.Datum
