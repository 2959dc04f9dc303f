import WatCompiler.Proofs.Source.ExprNodes

/-!
# Words that say lexemes

The words of a source say lexemes if they are their spellings (`Says`), with one freedom: zero may
be written with more than one digit. Names, keywords, operators and numerals are said by their own
texts. The words of an outline are its lexemes without those that show the line structure.
-/

namespace WatCompiler

namespace Source

open Token (isIdentifier isNumeral)

/-- A numeral of zeros with a single zero; any other text as it is. -/
def shorten (t : Text) : Text :=
  if t ≠ [] ∧ t.all (· = Text.byte '0') = true then "0" else t

theorem shorten_cons {c : UInt8} (hc : c ≠ Text.byte '0') (t : Text) :
    shorten (c :: t) = c :: t := by
  refine if_neg fun ⟨_, hall⟩ => hc ?_
  rw [List.all_cons, Bool.and_eq_true] at hall
  exact of_decide_eq_true hall.1

/-- Only numerals have leading zeros to lose. -/
theorem shorten_isWord {x : Lexeme} (hx : x.IsWord) (hkind : x.kind ≠ .int) :
    shorten x.text = x.text := by
  obtain ⟨c, t, htext, hc⟩ := exists_text_eq_cons hx
  rw [htext]
  refine shorten_cons ?_ t
  rintro rfl
  cases hx with
  | numeral => exact hkind rfl
  | name | keyword => cases hc
  | op o | sign o => cases o <;> cases hc

/-- Digits that are read as a number are its numeral, but for zeros. -/
theorem shorten_numeral {t : Text} (ht : isNumeral t = true) {n : Nat}
    (hread : Text.readDigits t = .ok n) : shorten t = Text.ofNat n := by
  simp only [isNumeral, Bool.and_eq_true, Bool.not_eq_true', List.isEmpty_eq_false_iff] at ht
  obtain ⟨⟨hne, hdigits⟩, hzeros⟩ := ht
  have hvalue : Text.digitsValue 0 t = n := by
    rw [Text.readDigits, if_neg (by simpa using hne)] at hread
    exact ((Text.readMagnitude_eq_ok (by decide)).mp hread).2.1
  cases t with
  | nil => exact absurd rfl hne
  | cons c rest =>
    by_cases hall : (c :: rest).all (· = Text.byte '0') = true
    · rw [shorten, if_pos ⟨hne, hall⟩, ← hvalue, Text.digitsValue_zeros hall, Text.ofNat,
        if_pos (by decide)]
      rfl
    · -- Only a numeral of zeros starts with a zero.
      have hc : c ≠ Text.byte '0' := by
        rintro rfl
        rw [List.head?_cons, decide_eq_true rfl, Bool.true_and] at hzeros
        apply hall
        rw [List.all_eq_not_any_not, Bool.not_eq_true']
        simpa using hzeros
      rw [shorten_cons hc, ← hvalue, Text.ofNat_digitsValue hdigits ⟨c, rfl, hc⟩]

/-! ## Saying -/

/-- The words are the spellings of lexemes that stand within a line, but that zero may have more
digits. -/
structure Says (words : List Text) (xs : List Lexeme) : Prop where
  text : words.map shorten = xs.map Lexeme.text
  isWord : ∀ x ∈ xs, x.IsWord

namespace Says

variable {words words' : List Text} {xs ys : List Lexeme}

theorem nil : Says [] [] := ⟨rfl, nofun⟩

/-- What is said in two parts. -/
theorem append (h : Says words xs) (h' : Says words' ys) : Says (words ++ words') (xs ++ ys) := by
  refine ⟨?_, List.forall_mem_append.mpr ⟨h.isWord, h'.isWord⟩⟩
  rw [List.map_append, List.map_append, h.text, h'.text]

/-- A word other than a numeral says itself. -/
theorem of_isWord {x : Lexeme} (hx : x.IsWord) (hkind : x.kind ≠ .int) : Says [x.text] [x] :=
  ⟨congrArg ([·]) (shorten_isWord hx hkind), List.forall_mem_singleton.mpr hx⟩

theorem name {t : Text} (ht : isIdentifier t = true) : Says [t] [.name t] :=
  .of_isWord (.name ht) nofun

theorem keyword (k : Keyword) : Says [k.text] [.keyword k] := .of_isWord (.keyword k) nofun

theorem op (o : Operator) : Says [o.text] [.op o] := .of_isWord (.op o) nofun

/-- A numeral says its value, with any number of zeros ahead of it. -/
theorem numeral {t : Text} (ht : isNumeral t = true) {n : Nat}
    (hread : Text.readDigits t = .ok n) : Says [t] [.numeral n] :=
  ⟨congrArg ([·]) (shorten_numeral ht hread), List.forall_mem_singleton.mpr (.numeral n)⟩

end Says

/-! ## The words of outlines -/

namespace Outline

mutual

/-- The lexemes of an outline, without those that show the line structure. -/
def words : Outline → List Lexeme
  | line words => words
  | block head body => head ++ wordsAll body

/-- The words of some outlines. -/
def wordsAll : List Outline → List Lexeme
  | [] => []
  | first :: rest => first.words ++ wordsAll rest

end

theorem wordsAll_append (os os' : List Outline) :
    wordsAll (os ++ os') = wordsAll os ++ wordsAll os' := by
  induction os with
  | nil => rfl
  | cons o os ih => rw [List.cons_append, wordsAll, wordsAll, ih, List.append_assoc]

end Outline

end Source

end WatCompiler
