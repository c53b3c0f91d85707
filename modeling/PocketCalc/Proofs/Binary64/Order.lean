import PocketCalc.Proofs.Binary64.Interval
import PocketCalc.Proofs.Binary64.Opposite

/-!
# The order of numbers

* `distance`, `toRat` — how far a finite number is from zero, and the rational number that it is;
* `compare_canonical`, `compare_eq` — numbers are compared by their exponents and then by their significands, which is the
  order of their values;
* `le_iff`, `lt_iff` — so finite numbers are in the order of their values;
* `not_isNaN_cases`, `le_cases` — a number that is no NaN is finite or one of the infinities, which are above and below all
  others.
-/

namespace PocketCalc.Binary64

open Float.Model Float.Model.UnpackedFloat

variable {a b c : Binary64} {s : Sign} {m m₁ m₂ : ℕ} {e e₁ e₂ : ℤ} {hm : 0 < m} {y : ℚ}

/-! ## How far numbers are from zero -/

/-- How far a finite number is from zero. -/
def distance (a : Binary64) : ℚ := a.significand * 2 ^ a.exponent

theorem distance_nonneg (a : Binary64) : 0 ≤ a.distance := by
  unfold distance
  positivity

theorem distance_of_zero (h : a.unpacked = .zero s) : a.distance = 0 := by
  rw [distance, (fields_of_zero h).2.1, Nat.cast_zero, zero_mul]

theorem distance_of_finite (h : a.unpacked = .finite s m e hm) : a.distance = m * 2 ^ e := by
  obtain ⟨-, hsignificand, hexponent, -⟩ := fields_of_finite h
  rw [distance, hsignificand, hexponent]

theorem distance_neg (h : a.isFinite = true) : (-a).distance = a.distance := by
  obtain ⟨hsignificand, hexponent, -⟩ := fields_neg h
  rw [distance, distance, hsignificand, hexponent]

/-- The significands and exponents that finite numbers have. -/
theorem canonical (h : a.isFinite = true) : Canonical a.significand a.exponent := by
  rcases finite_cases h with ⟨s, hs⟩ | ⟨s, m, e, hm, hs⟩
  · obtain ⟨-, hsignificand, hexponent⟩ := fields_of_zero hs
    rw [hsignificand, hexponent]
    exact ⟨by norm_num, le_rfl, by norm_num, .inr rfl⟩
  · obtain ⟨-, hsignificand, hexponent, hc, -⟩ := fields_of_finite hs
    rwa [hsignificand, hexponent]

/-! ## Values -/

/-- The rational number with a sign and a distance from zero. -/
def signed : Sign → ℚ → ℚ
  | .positive, y => y
  | .negative, y => -y

/-- The rational number that a finite number is. -/
def toRat (a : Binary64) : ℚ := signed a.sign a.distance

theorem signed_zero (s : Sign) : signed s 0 = 0 := by
  cases s
  · exact neg_zero
  · rfl

theorem toRat_of_zero (h : a.unpacked = .zero s) : a.toRat = 0 := by rw [toRat, distance_of_zero h, signed_zero]

theorem toRat_of_finite (h : a.unpacked = .finite s m e hm) : a.toRat = signed s (m * 2 ^ e) := by
  rw [toRat, distance_of_finite h, (fields_of_finite h).1]

theorem abs_signed (s : Sign) (hy : 0 ≤ y) : |signed s y| = y := by
  cases s
  · exact (abs_neg y).trans (abs_of_nonneg hy)
  · exact abs_of_nonneg hy

theorem abs_toRat (a : Binary64) : |a.toRat| = a.distance := abs_signed a.sign a.distance_nonneg

theorem toRat_neg (h : a.isFinite = true) : (-a).toRat = -a.toRat := by
  rcases finite_cases h with ⟨s, hs⟩ | ⟨s, m, e, hm, hs⟩
  · have hneg : (-a).unpacked = .zero (-s) := by rw [unpacked_neg, hs]; rfl
    rw [toRat_of_zero hs, toRat_of_zero hneg, neg_zero]
  · have hneg : (-a).unpacked = .finite (-s) m e hm := by rw [unpacked_neg, hs]; rfl
    rw [toRat_of_finite hs, toRat_of_finite hneg]
    cases s
    · exact (neg_neg _).symm
    · rfl

theorem unpacked_abs (a : Binary64) : a.abs.unpacked = a.unpacked.abs := by
  show (ofUnpacked a.unpacked.abs).unpacked = _
  generalize hu : a.unpacked = u
  cases u with
  | notANumber => rfl
  | infinity s => exact unpacked_ofUnpacked_infinity _
  | zero s => exact unpacked_ofUnpacked_zero _
  | finite s m e hm => exact unpacked_ofUnpacked_finite (canonical_of_finite hu)

theorem toRat_abs (h : a.isFinite = true) : a.abs.isFinite = true ∧ a.abs.toRat = |a.toRat| := by
  have hunpacked := unpacked_abs a
  rcases finite_cases h with ⟨s, hs⟩ | ⟨s, m, e, hm, hs⟩ <;> rw [hs] at hunpacked
  · have habs : a.abs.unpacked = .zero .positive := hunpacked
    exact ⟨by rw [isFinite_eq, habs]; rfl, by rw [toRat_of_zero hs, toRat_of_zero habs, abs_zero]⟩
  · have habs : a.abs.unpacked = .finite .positive m e hm := hunpacked
    refine ⟨isFinite_of_unpacked habs, ?_⟩
    rw [abs_toRat, distance_of_finite hs, toRat_of_finite habs]
    rfl

/-! ## Comparison -/

/-- A number whose last place is higher is farther away from zero. -/
theorem lt_of_exponent_lt (hc₁ : Canonical m₁ e₁) (hc₂ : Canonical m₂ e₂) (h : e₁ < e₂) :
    (m₁ * 2 ^ e₁ : ℚ) < m₂ * 2 ^ e₂ := by
  have hfull : (2 : ℚ) ^ 52 ≤ m₂ := by
    have hmin := hc₁.le
    exact_mod_cast hc₂.full.resolve_right (by omega)
  have hlt : (m₁ : ℚ) < 2 ^ 53 := by exact_mod_cast hc₁.lt
  have hle : (2 : ℚ) ^ (e₁ + 1) ≤ 2 ^ e₂ := zpow_le_zpow_right₀ one_le_two h
  calc (m₁ * 2 ^ e₁ : ℚ) < 2 ^ 53 * 2 ^ e₁ := by gcongr
    _ = 2 ^ 52 * 2 ^ (e₁ + 1) := by
      rw [zpow_add_one₀ two_ne_zero]
      ring
    _ ≤ m₂ * 2 ^ e₂ := by gcongr

/-- Exponents are compared first, and then significands. -/
theorem compare_canonical (hc₁ : Canonical m₁ e₁) (hc₂ : Canonical m₂ e₂) :
    (compare e₁ e₂).then (compare m₁ m₂) = compare (m₁ * 2 ^ e₁ : ℚ) (m₂ * 2 ^ e₂) := by
  rcases lt_trichotomy e₁ e₂ with h | rfl | h
  · rw [compare_lt_iff_lt.2 h, compare_lt_iff_lt.2 (lt_of_exponent_lt hc₁ hc₂ h)]
    rfl
  · have hpos : (0 : ℚ) < 2 ^ e₁ := by positivity
    rw [compare_eq_iff_eq.2 rfl, Ordering.eq_then]
    rcases lt_trichotomy m₁ m₂ with h | rfl | h
    · have hlt : (m₁ : ℚ) < m₂ := Nat.cast_lt.2 h
      rw [compare_lt_iff_lt.2 h, compare_lt_iff_lt.2 (mul_lt_mul_of_pos_right hlt hpos)]
    · rw [compare_eq_iff_eq.2 rfl, compare_eq_iff_eq.2 rfl]
    · have hlt : (m₂ : ℚ) < m₁ := Nat.cast_lt.2 h
      rw [compare_gt_iff_gt.2 h, compare_gt_iff_gt.2 (mul_lt_mul_of_pos_right hlt hpos)]
  · rw [compare_gt_iff_gt.2 h, compare_gt_iff_gt.2 (lt_of_exponent_lt hc₂ hc₁ h)]
    rfl

theorem compare_neg (x y : ℚ) : compare (-x) (-y) = (compare x y).swap := by
  rcases lt_trichotomy x y with h | rfl | h
  · rw [compare_lt_iff_lt.2 h, compare_gt_iff_gt.2 (neg_lt_neg h)]
    rfl
  · rw [compare_eq_iff_eq.2 rfl, compare_eq_iff_eq.2 rfl]
    rfl
  · rw [compare_gt_iff_gt.2 h, compare_lt_iff_lt.2 (neg_lt_neg h)]
    rfl

/-- **Finite numbers are compared as their values are.** -/
theorem compare_eq (ha : a.isFinite = true) (hb : b.isFinite = true) :
    a.unpacked.compare b.unpacked = some (compare a.toRat b.toRat) := by
  have hpos {m : ℕ} {e : ℤ} (hm : 0 < m) : (0 : ℚ) < m * 2 ^ e := by positivity
  rcases finite_cases ha with ⟨s, hs⟩ | ⟨s, m, e, hm, hs⟩ <;>
    rcases finite_cases hb with ⟨t, ht⟩ | ⟨t, m', e', hm', ht⟩
  · rw [hs, ht, toRat_of_zero hs, toRat_of_zero ht, compare_eq_iff_eq.2 rfl]
    rfl
  · rw [hs, ht, toRat_of_zero hs, toRat_of_finite ht]
    cases t <;> simp only [signed]
    · rw [compare_gt_iff_gt.2 (neg_lt_zero.2 (hpos hm'))]
      rfl
    · rw [compare_lt_iff_lt.2 (hpos hm')]
      rfl
  · rw [hs, ht, toRat_of_finite hs, toRat_of_zero ht]
    cases s <;> simp only [signed]
    · rw [compare_lt_iff_lt.2 (neg_lt_zero.2 (hpos hm))]
      rfl
    · rw [compare_gt_iff_gt.2 (hpos hm)]
      rfl
  · have hcanonical := compare_canonical (canonical_of_finite hs) (canonical_of_finite ht)
    rw [hs, ht, toRat_of_finite hs, toRat_of_finite ht]
    cases s <;> cases t <;> simp only [signed, UnpackedFloat.compare]
    · rw [compare_neg, hcanonical]
    · rw [compare_lt_iff_lt.2 ((neg_lt_zero.2 (hpos hm)).trans (hpos hm'))]
    · rw [compare_gt_iff_gt.2 ((neg_lt_zero.2 (hpos hm')).trans (hpos hm))]
    · rw [hcanonical]

theorem le_iff (ha : a.isFinite = true) (hb : b.isFinite = true) : a.le b = true ↔ a.toRat ≤ b.toRat := by
  rw [le_eq, compare_eq ha hb, Option.any_some, Ordering.isLE_iff_ne_gt]
  exact compare_le_iff_le

theorem lt_iff (ha : a.isFinite = true) (hb : b.isFinite = true) : a.lt b = true ↔ a.toRat < b.toRat := by
  rw [lt_eq, compare_eq ha hb, beq_iff_eq, Option.some.injEq]
  exact compare_lt_iff_lt

/-! ## Infinities -/

/-- A number that is no NaN is finite or infinite. -/
theorem not_isNaN_cases (h : a.isNaN = false) : a.isFinite = true ∨ ∃ s, a.unpacked = .infinity s := by
  rw [isNaN_eq] at h
  rw [isFinite_eq]
  generalize a.unpacked = u at *
  cases u with
  | notANumber => cases h
  | infinity s => exact .inr ⟨s, rfl⟩
  | zero s => exact .inl rfl
  | finite s m e hm => exact .inl rfl

theorem isNaN_of_infinity (h : a.unpacked = .infinity s) : a.isNaN = false := by rw [isNaN_eq, h]; rfl

theorem isFinite_of_infinity (h : a.unpacked = .infinity s) : a.isFinite = false := by rw [isFinite_eq, h]; rfl

/-- Nothing is above the positive infinity. -/
theorem le_infinity (ha : a.isNaN = false) (hb : b.unpacked = .infinity .positive) : a.le b = true := by
  rw [le_eq, hb]
  rw [isNaN_eq] at ha
  generalize a.unpacked = u at *
  cases u with
  | notANumber => cases ha
  | infinity s => cases s <;> rfl
  | zero s => rfl
  | finite s m e hm => cases s <;> rfl

/-- Nothing is below the negative infinity. -/
theorem infinity_le (ha : a.unpacked = .infinity .negative) (hb : b.isNaN = false) : a.le b = true := by
  rw [le_eq, ha]
  rw [isNaN_eq] at hb
  generalize b.unpacked = u at *
  cases u with
  | notANumber => cases hb
  | infinity s => cases s <;> rfl
  | zero s => rfl
  | finite s m e hm => cases s <;> rfl

/-- Only numbers are in order. -/
theorem isNaN_of_le (h : a.le b = true) : a.isNaN = false ∧ b.isNaN = false := by
  rw [le_eq] at h
  rw [isNaN_eq, isNaN_eq]
  generalize a.unpacked = u at *
  generalize b.unpacked = v at *
  constructor
  · cases u with
    | notANumber => cases h
    | _ => rfl
  · cases v with
    | notANumber => cases u <;> cases h
    | _ => rfl

/-- A number below a finite one is finite, or the negative infinity. -/
theorem left_of_le (h : a.le b = true) (hb : b.isFinite = true) :
    a.isFinite = true ∨ a.unpacked = .infinity .negative := by
  rcases not_isNaN_cases (isNaN_of_le h).1 with ha | ⟨s, hs⟩
  · exact .inl ha
  · cases s with
    | negative => exact .inr hs
    | positive =>
      rw [le_eq, hs] at h
      rcases finite_cases hb with ⟨t, ht⟩ | ⟨t, m, e, hm, ht⟩ <;> rw [ht] at h <;> cases h

/-- Numbers in order are finite, or the lower one is the negative infinity, or the upper one the positive infinity. -/
theorem le_cases (h : a.le b = true) :
    a.isFinite = true ∧ b.isFinite = true ∨ a.unpacked = .infinity .negative ∨ b.unpacked = .infinity .positive := by
  rcases not_isNaN_cases (isNaN_of_le h).2 with hb | ⟨t, ht⟩
  · exact (left_of_le h hb).imp (⟨·, hb⟩) .inl
  · cases t with
    | positive => exact .inr (.inr ht)
    | negative =>
      -- nothing is below the negative infinity but itself
      rw [le_eq, ht] at h
      generalize a.unpacked = u at *
      cases u with
      | notANumber => cases h
      | infinity s =>
        cases s with
        | negative => exact .inr (.inl rfl)
        | positive => cases h
      | zero s => cases h
      | finite s m e hm => cases s <;> cases h

/-- A number above a finite one is finite, or the positive infinity. -/
theorem right_of_le (h : a.le b = true) (ha : a.isFinite = true) :
    b.isFinite = true ∨ b.unpacked = .infinity .positive := by
  rcases le_cases h with ⟨-, hb⟩ | hinf | hinf
  · exact .inl hb
  · rw [isFinite_of_infinity hinf] at ha
    cases ha
  · exact .inr hinf

/-- What lies between finite numbers is finite. -/
theorem isFinite_of_le_of_le (hab : a.le b = true) (hbc : b.le c = true) (ha : a.isFinite = true)
    (hc : c.isFinite = true) : b.isFinite = true := by
  rcases right_of_le hab ha with hb | hb
  · exact hb
  · rcases left_of_le hbc hc with hb' | hb'
    · exact hb'
    · rw [hb] at hb'
      cases hb'

end PocketCalc.Binary64
