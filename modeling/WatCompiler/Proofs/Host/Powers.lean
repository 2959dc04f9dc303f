import Mathlib.Algebra.Order.Field.Power
import Mathlib.Data.Int.ModEq
import Mathlib.Data.Rat.Floor
import WatCompiler.Host

/-!
# Powers of words

Powers are computed by repeated squaring, and every square and every product wraps around. Nothing
is lost by that: the power of a word to an exponent that is not negative is the one word that is
congruent to the power of integers modulo 2³², however large that is. To a negative exponent it is
the power of rational numbers, cut toward zero, and zero if the base is zero (`intPow_exact`).
-/

namespace WatCompiler

/-! ## Exponents that are not negative -/

theorem toInt_mul_modEq (a b : Int32) : (a * b).toInt ≡ a.toInt * b.toInt [ZMOD 2 ^ 32] := by
  rw [Int32.toInt_mul]
  exact Int.bmod_emod

/-- Words that are congruent are the same. -/
theorem modEq_toInt_iff {a b : Int32} : a.toInt ≡ b.toInt [ZMOD 2 ^ 32] ↔ a = b := by
  refine ⟨fun h => Int32.toInt_inj.mp ?_, fun h => h ▸ Int.ModEq.refl _⟩
  have h' : a.toInt % 2 ^ 32 = b.toInt % 2 ^ 32 := h
  have ha := a.le_toInt
  have ha' := a.toInt_lt
  have hb := b.le_toInt
  have hb' := b.toInt_lt
  omega

/-- Repeated squaring gives the power, up to a multiple of 2³². -/
theorem wrappingPow_modEq (base : Int32) (exponent : Nat) :
    (wrappingPow base exponent).toInt ≡ base.toInt ^ exponent [ZMOD 2 ^ 32] := by
  fun_induction wrappingPow base exponent with
  | case1 base =>
    rw [pow_zero]
    exact Int.ModEq.refl 1
  | case2 base exponent hpos rest hodd ih =>
    have hexponent : exponent = 2 * (exponent / 2) + 1 := by omega
    calc (base * rest).toInt ≡ base.toInt * rest.toInt [ZMOD 2 ^ 32] := toInt_mul_modEq ..
      _ ≡ base.toInt * (base * base).toInt ^ (exponent / 2) [ZMOD 2 ^ 32] := ih.mul_left _
      _ ≡ base.toInt * (base.toInt * base.toInt) ^ (exponent / 2) [ZMOD 2 ^ 32] :=
        ((toInt_mul_modEq base base).pow _).mul_left _
      _ = base.toInt ^ exponent := by
        rw [← pow_two, ← pow_mul, ← pow_succ', ← hexponent]
  | case3 base exponent hpos rest heven ih =>
    have hexponent : exponent = 2 * (exponent / 2) := by omega
    calc rest.toInt ≡ (base * base).toInt ^ (exponent / 2) [ZMOD 2 ^ 32] := ih
      _ ≡ (base.toInt * base.toInt) ^ (exponent / 2) [ZMOD 2 ^ 32] :=
        (toInt_mul_modEq base base).pow _
      _ = base.toInt ^ exponent := by rw [← pow_two, ← pow_mul, ← hexponent]

/-! ## Negative exponents -/

/-- A rational number, cut toward zero. -/
def towardZero (q : ℚ) : ℤ := if 0 ≤ q then ⌊q⌋ else ⌈q⌉

theorem towardZero_intCast (n : ℤ) : towardZero n = n := by
  unfold towardZero
  split
  · exact Int.floor_intCast n
  · exact Int.ceil_intCast n

theorem towardZero_eq_zero {q : ℚ} (h : |q| < 1) : towardZero q = 0 := by
  obtain ⟨hlow, hhigh⟩ := abs_lt.mp h
  unfold towardZero
  split
  · next hq => exact Int.floor_eq_zero_iff.mpr ⟨hq, hhigh⟩
  · next hq => exact Int.ceil_eq_zero_iff.mpr ⟨hlow, (not_le.mp hq).le⟩

/-- Of a number other than 0, 1 and -1 nothing is left. -/
theorem towardZero_zpow_eq_zero {base exponent : ℤ} (hbase : 1 < |base|)
    (hexponent : exponent < 0) :
    towardZero ((base : ℚ) ^ exponent) = 0 := by
  apply towardZero_eq_zero
  rw [abs_zpow, ← Int.cast_abs]
  exact zpow_lt_one_of_neg₀ (by exact_mod_cast hbase) hexponent

/-- The remainder tells whether a word is even, also if it is negative. -/
theorem mod_two_eq_zero_iff (n : Int32) : n % 2 = 0 ↔ Even n.toInt := by
  rw [← Int32.toInt_inj, Int32.toInt_mod, Int.even_iff]
  change n.toInt.tmod 2 = 0 ↔ n.toInt % 2 = 0
  rw [← Int.dvd_iff_emod_eq_zero, Int.dvd_iff_tmod_eq_zero]

theorem intPow_of_neg {base exponent : Int32} (hexponent : exponent < 0) (hbase : base ≠ 0) :
    (intPow base exponent).toInt = towardZero ((base.toInt : ℚ) ^ exponent.toInt) := by
  have hneg : exponent.toInt < 0 := Int32.lt_iff_toInt_lt.mp hexponent
  rw [intPow, if_pos hexponent]
  by_cases hone : base = 1
  · rw [if_pos hone, hone]
    change (1 : ℤ) = towardZero (((1 : ℤ) : ℚ) ^ exponent.toInt)
    rw [Int.cast_one, one_zpow]
    exact (towardZero_intCast 1).symm
  rw [if_neg hone]
  by_cases hminus : base = -1
  · rw [if_pos hminus, hminus]
    change _ = towardZero (((-1 : ℤ) : ℚ) ^ exponent.toInt)
    rw [Int.cast_neg, Int.cast_one]
    by_cases heven : Even exponent.toInt
    · rw [if_pos ((mod_two_eq_zero_iff _).mpr heven), heven.neg_one_zpow]
      exact (towardZero_intCast 1).symm
    · rw [if_neg (mt (mod_two_eq_zero_iff _).mp heven),
        (Int.not_even_iff_odd.mp heven).neg_one_zpow]
      exact (towardZero_intCast (-1)).symm
  · rw [if_neg hminus]
    have hzero : base.toInt ≠ 0 := fun h => hbase (Int32.toInt_inj.mp h)
    have hone' : base.toInt ≠ 1 := fun h => hone (Int32.toInt_inj.mp h)
    have hminus' : base.toInt ≠ -1 := fun h => hminus (Int32.toInt_inj.mp h)
    have habs : 1 < |base.toInt| := lt_abs.mpr (by omega)
    exact (towardZero_zpow_eq_zero habs hneg).symm

/-! ## All exponents -/

/-- **Powers are exact.** To an exponent that is not negative the power is the one word that is
congruent to the power of integers, where the power of zero to zero is one. To a negative exponent
it is the power of rational numbers, cut toward zero, or zero if the base is zero. -/
theorem intPow_exact (base exponent : Int32) :
    (0 ≤ exponent →
      ∀ power : Int32,
        power = intPow base exponent ↔
          power.toInt ≡ base.toInt ^ exponent.toInt.toNat [ZMOD 2 ^ 32]) ∧
    (exponent < 0 →
      (base ≠ 0 →
        (intPow base exponent).toInt = towardZero ((base.toInt : ℚ) ^ exponent.toInt)) ∧
      (base = 0 → intPow base exponent = 0)) := by
  refine ⟨fun hexponent power => ?_, fun hexponent => ⟨intPow_of_neg hexponent, fun hbase => ?_⟩⟩
  · have hpow := wrappingPow_modEq base exponent.toInt.toNat
    rw [intPow, if_neg (Int32.not_lt.mpr hexponent), ← modEq_toInt_iff]
    exact ⟨fun h => h.trans hpow, fun h => h.trans hpow.symm⟩
  · rw [hbase, intPow, if_pos hexponent]
    rfl

theorem intPow_exact_words :
    (0 : Int32) ≤ 21 ∧ 1870418611 = intPow 3 21 ∧
      (-3 : Int32) < 0 ∧ (-1 : Int32) ≠ 0 ∧
      (intPow (-1) (-3)).toInt = towardZero (((-1 : Int32).toInt : ℚ) ^ (-3 : Int32).toInt) :=
  ⟨by decide, ((intPow_exact 3 21).1 (by decide) _).mpr (by decide), by decide, by decide,
    ((intPow_exact (-1) (-3)).2 (by decide)).1 (by decide)⟩

end WatCompiler
