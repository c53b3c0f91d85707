import PocketCalc.Proofs.Binary64.Overflow

/-!
# Whole numbers nearby

* `IsNumber x` — the value `x` is that of a finite number; `Nearest.toRat_eq` — such a value is rounded to itself;
* `isNumber_of_places` — values with at most 53 binary places are values of numbers;
* `roundAbs_eq` — the whole number nearest to the distance from zero, where a half goes up;
* `round` — the whole number nearest to a number, with the sign of the number;
* `toRat_sub_of_eq_round` — the difference between a number and the whole number nearest to it is exact, and so is what is
  found out from it.
-/

namespace PocketCalc.Binary64

open Float.Model Float.Model.UnpackedFloat

variable {a b : Binary64} {x : ℚ} {m : ℕ} {p z : ℤ}

/-! ## Values of numbers -/

/-- The value is that of a finite number. -/
def IsNumber (x : ℚ) : Prop := ∃ a : Binary64, a.isFinite = true ∧ a.toRat = x

theorem IsNumber.neg (h : IsNumber x) : IsNumber (-x) := by
  obtain ⟨a, ha, rfl⟩ := h
  exact ⟨-a, (isFinite_neg a).trans ha, toRat_neg ha⟩

theorem IsNumber.signed (h : IsNumber x) (s : Sign) : IsNumber (signed s x) := by
  cases s
  · exact h.neg
  · exact h

theorem isNumber_distance (h : a.isFinite = true) : IsNumber a.distance := by
  have hself : IsNumber a.toRat := ⟨a, h, rfl⟩
  rw [← abs_toRat]
  rcases abs_choice a.toRat with habs | habs <;> rw [habs]
  · exact hself
  · exact hself.neg

/-- The value of a number is rounded to itself. -/
theorem Nearest.toRat_eq (h : Nearest x a) (hx : IsNumber x) : a.isFinite = true ∧ a.toRat = x := by
  obtain ⟨b, hb, rfl⟩ := hx
  have hself := nearest_self hb
  have ha := h.isFinite (hself.abs_lt_threshold hb)
  exact ⟨ha, le_antisymm (h.toRat_le le_rfl hself ha hb) (hself.toRat_le le_rfl h hb ha)⟩

theorem isNumber_of_lt (hlt : m < 2 ^ 53) (hp : -1074 ≤ p) (hp' : p ≤ 971) : IsNumber (m * 2 ^ p) := by
  rcases Nat.eq_zero_or_pos m with rfl | hm
  · exact ⟨ofNat 0, rfl, (toRat_of_zero unpacked_ofNat_zero).trans (by simp)⟩
  · obtain ⟨M, q, hM, hc, hvalue⟩ := exists_canonical hm hlt hp hp'
    have hu : (ofUnpacked (.finite .positive M q hM)).unpacked = .finite .positive M q hM := unpacked_ofUnpacked_finite hc
    exact ⟨_, isFinite_of_unpacked hu, (toRat_of_finite hu).trans hvalue⟩

/-- **A value with at most 53 binary places is the value of a number**, as far as exponents go. -/
theorem isNumber_of_places (hz : z.natAbs < 2 ^ 53) (hp : -1074 ≤ p) (hp' : p ≤ 971) : IsNumber (z * 2 ^ p) := by
  have habs := isNumber_of_lt hz hp hp'
  rcases Int.natAbs_eq z with h | h <;> rw [h]
  · rwa [Int.cast_natCast]
  · rw [Int.cast_neg, Int.cast_natCast, ← neg_mul_eq_neg_mul]
    exact habs.neg

/-! ## The nearest whole number -/

/-- **The whole number nearest to the distance from zero**; a half goes up. -/
theorem roundAbs_eq (a : Binary64) : a.roundAbs = ⌊a.distance + 1 / 2⌋₊ := by
  have hpow : (2 : ℚ) ^ a.exponent * 2 ^ (-a.exponent).toNat = 2 ^ a.exponent.toNat :=
    Decimal.zpow_mul_toNat two_ne_zero a.exponent
  have hvalue : a.distance + 1 / 2 =
      ((2 * (a.significand * Nat.pow 2 a.exponent.toNat) + Nat.pow 2 (-a.exponent).toNat : ℕ) : ℚ) /
        (2 * Nat.pow 2 (-a.exponent).toNat : ℕ) := by
    simp only [Nat.pow_eq, distance, Nat.cast_add, Nat.cast_mul, Nat.cast_pow, Nat.cast_ofNat]
    rw [eq_div_iff (by positivity), ← hpow]
    ring
  rw [hvalue, Nat.floor_div_eq_div, roundAbs]

theorem abs_sub_roundAbs_le (a : Binary64) : |a.distance - a.roundAbs| ≤ 1 / 2 := by
  have hnonneg := a.distance_nonneg
  have hlow := Nat.floor_le (show 0 ≤ a.distance + 1 / 2 by positivity)
  have hhigh := Nat.lt_floor_add_one (a.distance + 1 / 2)
  rw [← roundAbs_eq] at hlow hhigh
  exact abs_le.2 ⟨by linarith, by linarith⟩

/-- Zero is not nearer either. -/
theorem abs_sub_roundAbs_le_distance (a : Binary64) : |a.distance - a.roundAbs| ≤ a.distance := by
  rcases lt_or_ge a.distance (1 / 2) with hsmall | hlarge
  · have hzero : a.roundAbs = 0 := by
      rw [roundAbs_eq, Nat.floor_eq_zero]
      linarith
    rw [hzero, Nat.cast_zero, sub_zero, abs_of_nonneg a.distance_nonneg]
  · exact (abs_sub_roundAbs_le a).trans hlarge

/-- A number without a fraction is a whole number. -/
theorem roundAbs_of_nonneg (h : 0 ≤ a.exponent) : (a.roundAbs : ℚ) = a.distance := by
  have hvalue : a.distance = (a.significand * 2 ^ a.exponent.toNat : ℕ) := by
    rw [distance, Nat.cast_mul, Nat.cast_pow, Nat.cast_ofNat, ← zpow_natCast, Int.toNat_of_nonneg h]
  rw [roundAbs_eq, hvalue]
  congr 1
  refine (Nat.floor_eq_iff (by positivity)).2 ⟨?_, ?_⟩ <;> linarith

theorem isNumber_roundAbs (h : a.isFinite = true) : IsNumber a.roundAbs := by
  rcases le_or_gt 0 a.exponent with hwhole | hfraction
  · rw [roundAbs_of_nonneg hwhole]
    exact isNumber_distance h
  · have hlt : a.roundAbs < 2 ^ 53 := by
      have hle := distance_le_of_exponent_le h (show a.exponent ≤ -1 by omega)
      rw [roundAbs_eq, Nat.floor_lt (by linarith [a.distance_nonneg])]
      norm_num at hle ⊢
      linarith
    have hnumber := isNumber_of_lt (p := 0) hlt (by norm_num) (by norm_num)
    rwa [zpow_zero, mul_one] at hnumber

/-- What is left has no more places than the number. -/
theorem isNumber_sub_roundAbs (h : a.isFinite = true) : IsNumber (a.distance - a.roundAbs) := by
  rcases le_or_gt 0 a.exponent with hwhole | hfraction
  · rw [roundAbs_of_nonneg hwhole, sub_self]
    exact ⟨ofNat 0, rfl, toRat_of_zero unpacked_ofNat_zero⟩
  · obtain ⟨hlt, hmin, -⟩ := canonical h
    have hpos : (0 : ℚ) < 2 ^ a.exponent := by positivity
    have hunit : (2 : ℚ) ^ a.exponent * 2 ^ (-a.exponent).toNat = 1 := by
      rw [Decimal.zpow_mul_toNat two_ne_zero, Int.toNat_of_nonpos hfraction.le, pow_zero]
    have hvalue : a.distance - a.roundAbs =
        ((a.significand - a.roundAbs * 2 ^ (-a.exponent).toNat : ℤ) : ℚ) * 2 ^ a.exponent := by
      push_cast
      rw [sub_mul, mul_right_comm, mul_assoc, hunit, mul_one, distance]
    have hle := abs_sub_roundAbs_le_distance a
    rw [hvalue, abs_mul, abs_of_pos hpos, distance] at hle
    have hplaces := le_of_mul_le_mul_right hle hpos
    rw [hvalue]
    refine isNumber_of_places ?_ hmin (by omega)
    rw [← Int.cast_abs, Int.abs_eq_natAbs] at hplaces
    have hplaces : (a.significand - a.roundAbs * 2 ^ (-a.exponent).toNat : ℤ).natAbs ≤ a.significand := by
      exact_mod_cast hplaces
    omega

/-- The whole number nearest to a number, with the sign of the number; a half goes away from zero. What is no finite
number stays as it is. -/
def round (a : Binary64) : Binary64 :=
  if a.isFinite then
    match a.sign with
    | .positive => ofNat a.roundAbs
    | .negative => -ofNat a.roundAbs
  else a

/-- **The nearest whole number is exact**, however large. -/
theorem toRat_round (h : a.isFinite = true) : a.round.isFinite = true ∧ a.round.toRat = signed a.sign a.roundAbs := by
  obtain ⟨hfinite, hvalue⟩ := (nearest_ofNat a.roundAbs).toRat_eq (isNumber_roundAbs h)
  rw [round, if_pos h]
  cases a.sign
  · exact ⟨(isFinite_neg _).trans hfinite, (toRat_neg hfinite).trans (congrArg Neg.neg hvalue)⟩
  · exact ⟨hfinite, hvalue⟩

/-- A half goes away from zero on either side. -/
example : (ofFloat 2.5).round = ofNat 3 ∧ (ofFloat (-2.5)).round = -ofNat 3 := by decide +kernel

theorem signed_sub (s : Sign) (x y : ℚ) : signed s x - signed s y = signed s (x - y) := by
  cases s
  · exact (by ring : -x - -y = -(x - y))
  · rfl

/-- **The difference between a number and the whole number nearest to it is exact.** -/
theorem toRat_sub_of_eq_round (ha : a.isFinite = true) (hb : b.isFinite = true) (h : b.toRat = a.round.toRat) :
    (a - b).isFinite = true ∧ (a - b).toRat = a.toRat - a.round.toRat := by
  have hnumber : IsNumber (a.toRat - a.round.toRat) := by
    rw [(toRat_round ha).2, toRat, signed_sub]
    exact (isNumber_sub_roundAbs ha).signed a.sign
  have hnearest := nearest_sub ha hb
  rw [h] at hnearest
  exact hnearest.toRat_eq hnumber

end PocketCalc.Binary64
