import Mathlib.Data.List.Induction
import WatCompiler.Proofs.Basic
import WatCompiler.Text.Decimal

/-!
# Numerals and their values

The value of a text of digits by position, apart from how it is read. Reading digits gives their
value if that fits in 32 bits (`readMagnitude_eq_ok`), the numeral of a number has that number as
its value (`digitsValue_ofNat`), and so the numeral of a 32-bit integer is read as that integer
(`readInt32_ofInt`). Without leading zeros digits are the numeral of their value
(`ofNat_digitsValue`).
-/

namespace WatCompiler.Text

/-- The value of digits that follow the digits of `value`. -/
def digitsValue (value : Nat) (t : Text) : Nat :=
  t.foldl (fun value c => value * 10 + (c.toNat - 48)) value

/-- Digits are read from left to right. -/
theorem digitsValue_append (value : Nat) (t u : Text) :
    digitsValue value (t ++ u) = digitsValue (digitsValue value t) u := by
  rw [digitsValue, List.foldl_append]
  rfl

/-- A value only grows with more digits. -/
theorem le_digitsValue (value : Nat) (t : Text) : value ≤ digitsValue value t := by
  induction t generalizing value with
  | nil => exact Nat.le_refl value
  | cons c rest ih =>
    have hstep : value ≤ value * 10 + (c.toNat - 48) := by omega
    exact Nat.le_trans hstep (ih _)

/-- Digits are read as their value, if it fits. -/
theorem readMagnitude_eq_ok {value n : Nat} (hv : value < magnitudeLimit) {t : Text} :
    readMagnitude value t = .ok n ↔
      t.all isDigit = true ∧ digitsValue value t = n ∧ n < magnitudeLimit := by
  induction t generalizing value with
  | nil =>
    constructor
    · intro h
      cases h
      exact ⟨rfl, rfl, hv⟩
    · rintro ⟨-, rfl, -⟩
      rfl
  | cons c rest ih =>
    have hvalue : digitsValue value (c :: rest) =
        digitsValue (value * 10 + (c.toNat - 48)) rest := rfl
    by_cases hc : isDigit c = true
    · by_cases hnext : value * 10 + (c.toNat - 48) < magnitudeLimit
      · rw [readMagnitude, if_pos hc, if_pos hnext, ih hnext, hvalue, List.all_cons, hc,
          Bool.true_and]
      · rw [readMagnitude, if_pos hc, if_neg hnext, hvalue]
        refine ⟨fun h => (nomatch h), fun ⟨_, hn, hlt⟩ => ?_⟩
        have := le_digitsValue (value * 10 + (c.toNat - 48)) rest
        omega
    · rw [readMagnitude, if_neg hc, List.all_cons, Bool.and_eq_true]
      exact ⟨fun h => (nomatch h), fun ⟨h, _⟩ => absurd h.1 hc⟩

/-! ## The numeral of a number -/

theorem isDigit_digit {n : Nat} (h : n < 10) : isDigit (digit n) = true := by
  have : ∀ n : Fin 10, isDigit (digit n) = true := by decide
  exact this ⟨n, h⟩

theorem toNat_digit {n : Nat} (h : n < 10) : (digit n).toNat - 48 = n := by
  have : ∀ n : Fin 10, (digit n).toNat - 48 = n := by decide
  exact this ⟨n, h⟩

theorem all_isDigit_ofNat (n : Nat) : (ofNat n).all isDigit = true := by
  induction n using ofNat.induct with
  | case1 n h => rw [ofNat, if_pos h, List.all_cons, isDigit_digit h]; rfl
  | case2 n h ih =>
    rw [ofNat, if_neg h, List.all_append, ih, List.all_cons,
      isDigit_digit (Nat.mod_lt n (by decide))]
    rfl

/-- A number has the value of its digits. -/
theorem digitsValue_ofNat (n : Nat) : digitsValue 0 (ofNat n) = n := by
  induction n using ofNat.induct with
  | case1 n h =>
    rw [ofNat, if_pos h]
    show 0 * 10 + ((digit n).toNat - 48) = n
    rw [toNat_digit h, Nat.zero_mul, Nat.zero_add]
  | case2 n h ih =>
    rw [ofNat, if_neg h, digitsValue_append, ih]
    show n / 10 * 10 + ((digit (n % 10)).toNat - 48) = n
    rw [toNat_digit (Nat.mod_lt n (by decide)), Nat.mul_comm, Nat.div_add_mod]

/-- Numbers are told apart by their digits. -/
theorem ofNat_inj {m n : Nat} : ofNat m = ofNat n ↔ m = n := by
  constructor
  · intro h
    rw [← digitsValue_ofNat m, h, digitsValue_ofNat]
  · rintro rfl
    rfl

theorem ofNat_ne_nil (n : Nat) : ofNat n ≠ [] := by
  rw [ofNat]
  split
  · exact List.cons_ne_nil _ _
  · exact List.append_ne_nil_of_right_ne_nil _ (List.cons_ne_nil _ _)

/-- The numeral of a natural number starts with a digit. -/
theorem exists_ofNat_eq_cons (n : Nat) : ∃ c rest, ofNat n = c :: rest ∧ isDigit c = true ∧
    rest.all isDigit = true := by
  have hdigits := all_isDigit_ofNat n
  cases h : ofNat n with
  | nil => exact absurd h (ofNat_ne_nil n)
  | cons c rest =>
    rw [h, List.all_cons, Bool.and_eq_true] at hdigits
    exact ⟨c, rest, rfl, hdigits⟩

/-- Only the numeral of zero starts with a zero. -/
theorem eq_zero_of_head?_ofNat {n : Nat} (h : (ofNat n).head? = some (byte '0')) : n = 0 := by
  induction n using ofNat.induct with
  | case1 n hn =>
    have hzero : ∀ n : Fin 10, digit n = byte '0' → n = 0 := by decide
    rw [ofNat, if_pos hn] at h
    exact congrArg Fin.val (hzero ⟨n, hn⟩ (Option.some.inj h))
  | case2 n hn ih =>
    rw [ofNat, if_neg hn, List.head?_append_of_ne_nil _ (ofNat_ne_nil _)] at h
    have := ih h
    omega

/-- A digit is the digit of its value. -/
theorem digit_of_isDigit {c : UInt8} (h : isDigit c = true) :
    c.toNat - 48 < 10 ∧ digit (c.toNat - 48) = c ∧ (c ≠ byte '0' → 0 < c.toNat - 48) := by
  have hall : ∀ c : UInt8, isDigit c = true →
      c.toNat - 48 < 10 ∧ digit (c.toNat - 48) = c ∧ (c ≠ byte '0' → 0 < c.toNat - 48) := by
    decide +kernel
  exact hall c h

/-- Digits that do not start with a zero are the numeral of their value. -/
theorem ofNat_digitsValue {t : Text} (hdigits : t.all isDigit = true)
    (hhead : ∃ c ∈ t.head?, c ≠ byte '0') : ofNat (digitsValue 0 t) = t := by
  -- By induction on the last digit, as numerals are written.
  induction t using List.reverseRecOn with
  | nil =>
    obtain ⟨c, hc, -⟩ := hhead
    cases hc
  | append_singleton t d ih =>
    rw [List.all_append, Bool.and_eq_true, List.all_cons, Bool.and_eq_true] at hdigits
    obtain ⟨ht, hd, -⟩ := hdigits
    obtain ⟨hlt, hdigit, -⟩ := digit_of_isDigit hd
    have hvalue : digitsValue 0 (t ++ [d]) = digitsValue 0 t * 10 + (d.toNat - 48) := by
      rw [digitsValue_append]
      rfl
    cases t with
    | nil =>
      have hsmall : digitsValue 0 ([] ++ [d]) = d.toNat - 48 := by
        rw [hvalue]
        exact Nat.zero_add _
      rw [hsmall, ofNat, if_pos hlt, hdigit]
      rfl
    | cons c rest =>
      obtain ⟨c', hc', hne⟩ := hhead
      cases Option.mem_some.mp hc'
      rw [List.all_cons, Bool.and_eq_true] at ht
      -- The first digit is not zero, so what stands before the last one is not zero either.
      have hfirst := (digit_of_isDigit ht.1).2.2 hne
      have hpos : 0 < digitsValue 0 (c :: rest) := by
        have hle := le_digitsValue (0 * 10 + (c.toNat - 48)) rest
        show 0 < digitsValue (0 * 10 + (c.toNat - 48)) rest
        omega
      have hquot : (digitsValue 0 (c :: rest) * 10 + (d.toNat - 48)) / 10 =
          digitsValue 0 (c :: rest) := by omega
      have hrem : (digitsValue 0 (c :: rest) * 10 + (d.toNat - 48)) % 10 = d.toNat - 48 := by
        omega
      rw [hvalue, ofNat, if_neg (by omega), hquot, hrem, hdigit,
        ih (by rw [List.all_cons, ht.1, ht.2]; rfl) ⟨c, rfl, hne⟩]

theorem digitsValue_zeros {t : Text} (h : t.all (· = byte '0') = true) : digitsValue 0 t = 0 := by
  induction t with
  | nil => rfl
  | cons c rest ih =>
    rw [List.all_cons, Bool.and_eq_true] at h
    obtain rfl := of_decide_eq_true h.1
    exact ih h.2

/-- A number that is not too great is read back. -/
theorem readDigits_ofNat {n : Nat} (h : n < magnitudeLimit) : readDigits (ofNat n) = .ok n := by
  have hne : (ofNat n).isEmpty = false := by simpa using ofNat_ne_nil n
  rw [readDigits, hne]
  exact (readMagnitude_eq_ok (by decide)).mpr ⟨all_isDigit_ofNat n, digitsValue_ofNat n, h⟩

/-- The numeral of a 32-bit integer is read as that integer. -/
theorem readInt32_ofInt (v : Int32) : readInt32 (ofInt v.toInt) = .ok v := by
  have hlow := v.le_toInt
  have hhigh := v.toInt_lt
  rw [ofInt]
  by_cases hneg : v.toInt < 0
  · have hmag : v.toInt.natAbs ≤ leastMagnitude := by
      show v.toInt.natAbs ≤ 2147483648
      omega
    have hread : readDigits (ofNat v.toInt.natAbs) = .ok v.toInt.natAbs :=
      readDigits_ofNat (Nat.lt_of_le_of_lt hmag (by decide))
    have hvalue : -(v.toInt.natAbs : Int) = v.toInt := by omega
    rw [if_pos hneg, readInt32, if_pos rfl, hread]
    show (if _ then _ else _) = _
    rw [if_pos hmag, hvalue, Int32.ofInt_toInt]
    rfl
  · have hmag : v.toInt.natAbs < leastMagnitude := by
      show v.toInt.natAbs < 2147483648
      omega
    have hread : readDigits (ofNat v.toInt.natAbs) = .ok v.toInt.natAbs :=
      readDigits_ofNat (Nat.lt_trans hmag (by decide))
    have hvalue : (v.toInt.natAbs : Int) = v.toInt := by omega
    obtain ⟨c, rest, heq, hc, -⟩ := exists_ofNat_eq_cons v.toInt.natAbs
    have hsign : c ≠ byte '-' ∧ c ≠ byte '+' := by
      constructor <;> (rintro rfl; cases hc)
    rw [heq] at hread
    rw [if_neg hneg, heq, readInt32, if_neg hsign.1, if_neg hsign.2, hread]
    show (if _ then _ else _) = _
    rw [if_pos hmag, hvalue, Int32.ofInt_toInt]
    rfl

end WatCompiler.Text
