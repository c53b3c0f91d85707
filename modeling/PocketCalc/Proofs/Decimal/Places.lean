import PocketCalc.Proofs.Binary64.Overflow
import PocketCalc.Proofs.Decimal.Grid
import PocketCalc.Numeral.Reader

/-!
# Rounding to decimal places keeps the order

* `roundDiv_mono`, `toPlaces_mono` — a number that is farther from zero has at least as many units;
* `nearest_toPlaces` — a number that is rounded to places is what a multiple of their unit is rounded to;
* `toPlaces_le`, `isFinite_toPlaces` — numbers that are rounded to places are in the order in which they were, and as finite
  as they were.
-/

namespace PocketCalc

open Binary64 Float.Model Float.Model.UnpackedFloat

namespace Decimal

variable {a b : Binary64} {d : Decimal} {num num' den den' p : ℕ}

/-- A half is between two whole numbers of which the even one is taken. -/
theorem roundDiv_of_half {k : ℕ} (hden : 0 < den) (h : 2 * num = (2 * k + 1) * den) : roundDiv num den % 2 = 0 := by
  have hdiv : num / den = k := by
    refine Nat.div_eq_of_lt_le ?_ ?_ <;> linarith
  have hmod := Nat.div_add_mod num den
  rw [hdiv] at hmod
  exact roundDiv_even (by linarith)

/-- **A larger quotient is not rounded to less.** -/
theorem roundDiv_mono (hden : 0 < den) (hden' : 0 < den') (h : num * den' ≤ num' * den) :
    roundDiv num den ≤ roundDiv num' den' := by
  by_contra hlt
  obtain ⟨-, hlow⟩ := roundDiv_near num hden
  obtain ⟨hhigh, -⟩ := roundDiv_near num' hden'
  have heven (h : 2 * num = (2 * roundDiv num' den' + 1) * den) : roundDiv num den % 2 = 0 := roundDiv_of_half hden h
  have heven' (h : 2 * num' = (2 * roundDiv num' den' + 1) * den') : roundDiv num' den' % 2 = 0 :=
    roundDiv_of_half hden' h
  generalize roundDiv num den = n at *
  generalize roundDiv num' den' = n' at *
  -- both quotients are halfway between the two whole numbers, of which only one is even
  have hstep : (2 * n' + 1) * den ≤ 2 * num := by
    have hle : (2 * n' + 2) * den ≤ 2 * n * den := Nat.mul_le_mul_right den (by omega)
    linarith
  have hmiddle : (2 * n' + 1) * den * den' ≤ 2 * num * den' := Nat.mul_le_mul_right den' hstep
  have hmiddle' : 2 * num' * den ≤ (2 * n' + 1) * den' * den := Nat.mul_le_mul_right den hhigh
  have hhalf : 2 * num = (2 * n' + 1) * den := Nat.eq_of_mul_eq_mul_right hden' (by linarith)
  have hhalf' : 2 * num' = (2 * n' + 1) * den' := Nat.eq_of_mul_eq_mul_right hden (by linarith)
  have hnext : n = n' + 1 := by
    have hle : 2 * n * den ≤ (2 * n' + 2) * den := by linarith
    have := Nat.le_of_mul_le_mul_right hle hden
    omega
  have := heven hhalf
  have := heven' hhalf'
  omega

/-- A number that is farther from zero has at least as many units. -/
theorem toPlaces_mono (h : a.distance ≤ b.distance) (p : ℕ) : toPlaces a p ≤ toPlaces b p := by
  have hden : (0 : ℚ) < (fraction a p).2 := by exact_mod_cast fraction_den_pos a p
  have hden' : (0 : ℚ) < (fraction b p).2 := by exact_mod_cast fraction_den_pos b p
  refine roundDiv_mono (fraction_den_pos a p) (fraction_den_pos b p) ?_
  have hquotient : ((fraction a p).1 / (fraction a p).2 : ℚ) ≤ (fraction b p).1 / (fraction b p).2 := by
    rw [value_fraction, value_fraction]
    exact mul_le_mul_of_nonneg_right h (by positivity)
  rw [div_le_div_iff₀ hden hden'] at hquotient
  exact_mod_cast hquotient

theorem toPlaces_of_zero (h : a.distance = 0) (p : ℕ) : toPlaces a p = 0 := by
  have hdist := dist_roundDiv (fraction a p).1 (fraction_den_pos a p)
  rw [value_fraction, ← distance, h, zero_mul, sub_zero, ← toPlaces, abs_of_nonneg (Nat.cast_nonneg _)] at hdist
  have hlt : (toPlaces a p : ℚ) < (1 : ℕ) := hdist.trans_lt (by norm_num)
  exact Nat.lt_one_iff.1 (Nat.cast_lt.1 hlt)

/-- The units of a finite number are below the threshold together. -/
theorem toPlaces_lt_threshold (h : a.isFinite = true) (p : ℕ) : (toPlaces a p * 10 ^ (-p : ℤ) : ℚ) < threshold := by
  have hunit : (10 : ℚ) ^ (-p : ℤ) ≤ 1 := zpow_le_one_of_nonpos₀ (by norm_num) (by omega)
  have hpos : (0 : ℚ) < 10 ^ (-p : ℤ) := by positivity
  have hdist := (abs_le.1 (dist_roundDiv (fraction a p).1 (fraction_den_pos a p))).2
  rw [value_fraction, ← distance, ← toPlaces, sub_le_iff_le_add] at hdist
  have hlast : (1 : ℚ) < 2 ^ (971 : ℤ) := one_lt_zpow₀ one_lt_two (by norm_num)
  have hbound := distance_le_of_exponent_le h (Binary64.exponent_le h)
  have hscale : (a.distance * 10 ^ (p : ℤ) * 10 ^ (-p : ℤ) : ℚ) = a.distance := by
    rw [mul_assoc, ← zpow_add₀ (by norm_num), add_neg_cancel, zpow_zero, mul_one]
  calc (toPlaces a p * 10 ^ (-p : ℤ) : ℚ)
      ≤ (1 / 2 + a.distance * 10 ^ (p : ℤ)) * 10 ^ (-p : ℤ) := mul_le_mul_of_nonneg_right hdist hpos.le
    _ ≤ 1 / 2 + a.distance := by
      rw [add_mul, hscale]
      linarith
    _ < threshold := by
      rw [threshold]
      generalize (2 : ℚ) ^ (971 : ℤ) = unit at *
      linarith

end Decimal

namespace Binary64

variable {a b : Binary64} {s : Sign} {x : ℚ} {p : ℕ}

/-- **A finite number that is rounded to places is what a multiple of their unit is rounded to.** -/
theorem nearest_toPlaces (h : a.isFinite = true) (p : ℕ) :
    Nearest (signed a.sign (Decimal.toPlaces a p * 10 ^ (-p : ℤ))) (a.toPlaces p) := by
  have hunits := Decimal.nearest_toBinary64 ⟨Decimal.toPlaces a p, -p⟩
  have hvalue : Decimal.value ⟨Decimal.toPlaces a p, -p⟩ = Decimal.toPlaces a p * 10 ^ (-p : ℤ) := rfl
  rw [hvalue] at hunits
  rw [toPlaces, h]
  rcases finite_cases h with ⟨s, hs⟩ | ⟨s, m, e, hm, hs⟩
  · have hzero := Decimal.toPlaces_of_zero (distance_of_zero hs) p
    rw [hzero, Nat.cast_zero, zero_mul] at hunits
    rw [hzero, Nat.cast_zero, zero_mul, signed_zero]
    cases a.isNegative
    · exact hunits
    · rw [← neg_zero]
      exact hunits.neg
  · rw [(fields_of_finite hs).1]
    cases s with
    | negative =>
      rw [isNegative_of_negative hs]
      exact hunits.neg
    | positive =>
      rw [isNegative_of_positive hs]
      exact hunits

/-- Units with the signs of numbers are in the order of the numbers. -/
theorem signed_toPlaces_le (h : a.toRat ≤ b.toRat) (p : ℕ) :
    signed a.sign (Decimal.toPlaces a p * 10 ^ (-p : ℤ)) ≤ signed b.sign (Decimal.toPlaces b p * 10 ^ (-p : ℤ)) := by
  have hunit : (0 : ℚ) < 10 ^ (-p : ℤ) := by positivity
  have hmono {v w : Binary64} (h : v.distance ≤ w.distance) :
      (Decimal.toPlaces v p * 10 ^ (-p : ℤ) : ℚ) ≤ Decimal.toPlaces w p * 10 ^ (-p : ℤ) :=
    mul_le_mul_of_nonneg_right (Nat.cast_le.2 (Decimal.toPlaces_mono h p)) hunit.le
  have hnonneg (v : Binary64) : (0 : ℚ) ≤ Decimal.toPlaces v p * 10 ^ (-p : ℤ) := by positivity
  have ha := a.distance_nonneg
  have hb := b.distance_nonneg
  unfold toRat at h
  generalize a.sign = s at *
  generalize b.sign = t at *
  cases s <;> cases t <;> simp only [signed] at h ⊢
  · exact neg_le_neg (hmono (neg_le_neg_iff.1 h))
  · exact (neg_nonpos.2 (hnonneg a)).trans (hnonneg b)
  · -- both are zeros
    rw [Decimal.toPlaces_of_zero (by linarith), Decimal.toPlaces_of_zero (by linarith), Nat.cast_zero, zero_mul, neg_zero]
  · exact hmono h

theorem toPlaces_of_not_finite (h : a.isFinite = false) (p : ℕ) : a.toPlaces p = a := by
  rw [toPlaces, h]
  rfl

/-- **A number that is rounded to places is as finite as it was.** -/
theorem isFinite_toPlaces (a : Binary64) (p : ℕ) : (a.toPlaces p).isFinite = a.isFinite := by
  cases h : a.isFinite with
  | false => rw [toPlaces_of_not_finite h, h]
  | true =>
    refine (nearest_toPlaces h p).isFinite ?_
    rw [abs_signed _ (by positivity)]
    exact Decimal.toPlaces_lt_threshold h p

theorem isNaN_toPlaces (a : Binary64) (p : ℕ) : (a.toPlaces p).isNaN = a.isNaN := by
  cases h : a.isFinite with
  | false => rw [toPlaces_of_not_finite h]
  | true => rw [(nearest_toPlaces h p).isNaN, (isFinite_iff.1 h).1]

/-- **Numbers that are rounded to places are in the order in which they were.** -/
theorem toPlaces_le (h : a.le b = true) (p : ℕ) : (a.toPlaces p).le (b.toPlaces p) = true := by
  have hinfinity {v : Binary64} {s : Sign} (hv : v.unpacked = .infinity s) : (v.toPlaces p).unpacked = .infinity s := by
    rw [toPlaces_of_not_finite (isFinite_of_infinity hv), hv]
  obtain ⟨ha, hb⟩ := isNaN_of_le h
  have ha' : (a.toPlaces p).isNaN = false := (isNaN_toPlaces _ p).trans ha
  have hb' : (b.toPlaces p).isNaN = false := (isNaN_toPlaces _ p).trans hb
  rcases le_cases h with ⟨hfinite, hfinite'⟩ | hinf | hinf
  · exact Nearest.le (signed_toPlaces_le ((le_iff hfinite hfinite').1 h) p) (nearest_toPlaces hfinite p)
      (nearest_toPlaces hfinite' p)
  · exact infinity_le (hinfinity hinf) hb'
  · exact le_infinity ha' (hinfinity hinf)

end Binary64

end PocketCalc
