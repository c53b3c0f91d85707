import PocketCalc.Proofs.Binary64.Order

/-!
# Results of operations are rounded

* `Nearest x a` — `a` is the number that the value `x` is rounded to, or the infinity if `x` is beyond the threshold;
* `nearest_add`, `nearest_mul`, `nearest_div` — sums, products and quotients of finite numbers are what the exact ones are
  rounded to;
* `RoundsTo.unique`, `Nearest.le` — a value is rounded to one number only, and rounding keeps the order of values;
* `le_add_left` — so adding a number keeps the order of numbers;
* `distance_add_le`, `distance_mul_le`, … — results have the bounds that the exact ones have.
-/

namespace PocketCalc.Binary64

open Float.Model Float.Model.UnpackedFloat

variable {a b c : Binary64} {x y : ℚ} {s t : Sign} {m m' m₁ m₂ n : ℕ} {e e₁ e₂ k p q q' : ℤ} {acc : Accuracy}

/-! ## What a value is rounded to -/

/-- The number is what the value is rounded to: a finite number with the value in its interval, or an infinity. -/
inductive Nearest (x : ℚ) (a : Binary64) : Prop where
  | finite (hfinite : a.isFinite = true) (h : RoundsTo |x| a.significand a.exponent) (hpos : 0 ≤ x → 0 ≤ a.toRat)
    (hneg : x ≤ 0 → a.toRat ≤ 0)
  | above (ha : a.unpacked = .infinity .positive) (h : threshold ≤ x)
  | below (ha : a.unpacked = .infinity .negative) (h : x ≤ -threshold)

/-- A finite number is what its value is rounded to. -/
theorem nearest_self (h : a.isFinite = true) : Nearest a.toRat a := by
  refine .finite h ?_ id id
  rw [abs_toRat]
  exact .self _ _

theorem nearest_zero (h : a.unpacked = .zero s) : Nearest 0 a := by
  rw [← toRat_of_zero h]
  exact nearest_self (by rw [isFinite_eq, h]; rfl)

/-- A value in the interval of zero is rounded to zero, with any sign. -/
theorem nearest_of_zero (hx : RoundsTo |x| 0 (-1074)) (h : a.unpacked = .zero s) : Nearest x a := by
  obtain ⟨-, hsignificand, hexponent⟩ := fields_of_zero h
  have hvalue := toRat_of_zero h
  refine .finite (by rw [isFinite_eq, h]; rfl) ?_ (fun _ => hvalue.ge) fun _ => hvalue.le
  rwa [hsignificand, hexponent]

theorem nearest_of_finite {hm : 0 < m} (hx : 0 < x) (h : RoundsTo x m q) (ha : a.unpacked = .finite s m q hm) :
    Nearest (signed s x) a := by
  obtain ⟨-, hsignificand, hexponent, -⟩ := fields_of_finite ha
  have hvalue := toRat_of_finite ha
  have hnonneg : (0 : ℚ) ≤ m * 2 ^ q := by positivity
  refine .finite (isFinite_of_unpacked ha) ?_ (fun hpos => ?_) fun hneg => ?_
  · rwa [abs_signed s hx.le, hsignificand, hexponent]
  · rw [hvalue]
    cases s
    · exact absurd hpos (not_le.2 (neg_lt_zero.2 hx))
    · exact hnonneg
  · rw [hvalue]
    cases s
    · exact neg_nonpos.2 hnonneg
    · exact absurd hneg (not_le.2 hx)

theorem nearest_of_infinity (hx : threshold ≤ x) (ha : a.unpacked = .infinity s) : Nearest (signed s x) a := by
  cases s
  · exact .below ha (neg_le_neg hx)
  · exact .above ha hx

/-- The opposite of what a value is rounded to is what the opposite value is rounded to. -/
theorem Nearest.neg (h : Nearest x a) : Nearest (-x) (-a) := by
  rcases h with ⟨hfinite, hrounds, hpos, hneg⟩ | ⟨ha, hx⟩ | ⟨ha, hx⟩
  · obtain ⟨hsignificand, hexponent, -⟩ := fields_neg hfinite
    refine .finite ((isFinite_neg a).trans hfinite) ?_ (fun hle => ?_) fun hle => ?_
    · rwa [abs_neg, hsignificand, hexponent]
    · rw [toRat_neg hfinite]
      exact neg_nonneg.2 (hneg (neg_nonneg.1 hle))
    · rw [toRat_neg hfinite]
      exact neg_nonpos.2 (hpos (neg_nonpos.1 hle))
  · refine .below ?_ (neg_le_neg hx)
    rw [unpacked_neg, ha]
    rfl
  · refine .above ?_ (le_neg.1 hx)
    rw [unpacked_neg, ha]
    rfl

/-! ## Rounding of significands -/

/-- A value in the interval of zero is rounded on the finest grid. -/
theorem targetExponent_of_roundsTo_zero (hx : RoundsTo x 0 (-1074)) (hlow : m * 2 ^ e ≤ x)
    (hle : e ≤ Format.binary64.targetExponent (totalExponent m e)) :
    Format.binary64.targetExponent (totalExponent m e) = -1074 := by
  rw [targetExponent_eq] at hle ⊢
  rcases Nat.eq_zero_or_pos m with rfl | hm
  · simp only [totalExponent, Nat.log2_zero] at hle ⊢
    omega
  · have hlt : (2 : ℚ) ^ ((m.log2 : ℤ) + e) < 2 ^ (-1074 : ℤ) := by
      refine ((zpow_log2_le hm).trans hlow).trans_lt (hx.high.trans_lt ?_)
      rw [show (-1074 : ℤ) = 2 + (-1074 - 2) by norm_num, zpow_add₀ two_ne_zero]
      norm_num
    have hlog := (zpow_lt_zpow_iff_right₀ (one_lt_two (α := ℚ))).1 hlt
    simp only [totalExponent]
    omega

/-- A value in the interval of zero is rounded to zero. -/
theorem roundWithAccuracy_zero (hx : RoundsTo x 0 (-1074))
    (hrep : Represents (.ofMantissaAndAccuracy m acc) (x / 2 ^ e))
    (hle : e ≤ Format.binary64.targetExponent (totalExponent m e)) :
    roundWithAccuracy Format.binary64 s m e acc = .zero s := by
  have hpos : (0 : ℚ) < 2 ^ e := by positivity
  have hmantissa : (ExtendedMantissa.ofMantissaAndAccuracy m acc).mantissa = m := by
    rcases acc with _ | _ | _ | _ <;> rfl
  have hlow := hrep.le
  rw [hmantissa, le_div_iff₀ hpos] at hlow
  have htarget := targetExponent_of_roundsTo_zero hx hlow hle
  generalize hk : (Format.binary64.targetExponent (totalExponent m e) - e).toNat = k at *
  have hexp : e + k = -1074 := by omega
  have hshift := hrep.shiftRight k
  have hvalue : x / 2 ^ e / 2 ^ k = x / 2 ^ (-1074 : ℤ) := by
    rw [div_div, ← zpow_natCast, ← zpow_add₀ two_ne_zero, hexp]
  rw [hvalue] at hshift
  obtain ⟨hnear_low, hnear_high, hnear_tie⟩ := hx.nearest
  simp only [roundWithAccuracy]
  rw [show shiftToTargetExponent Format.binary64 m e acc = (ExtendedMantissa.ofMantissaAndAccuracy m acc >>> k, -1074)
    from Prod.ext (by rw [← hk]; rfl) (by rw [← hexp, ← hk]; rfl)]
  simp only
  rw [hshift.roundedMantissa hnear_low hnear_high hnear_tie]
  rfl

/-- A value that is given with enough places is rounded. -/
theorem nearest_roundWithAccuracy (hx : 0 < x) (hrep : Represents (.ofMantissaAndAccuracy m acc) (x / 2 ^ e))
    (hle : e ≤ Format.binary64.targetExponent (totalExponent m e)) :
    Nearest (signed s x) (ofUnpacked (roundWithAccuracy Format.binary64 s m e acc)) := by
  rcases lt_or_ge x threshold with h | h
  · obtain ⟨M, q, hc, hrounds, -⟩ := exists_roundsTo_of_lt hx h
    rcases Nat.eq_zero_or_pos M with rfl | hM
    · obtain rfl : q = -1074 := hc.full.resolve_left (by norm_num)
      rw [roundWithAccuracy_zero hrounds hrep hle]
      exact nearest_of_zero (by rwa [abs_signed s hx.le]) (unpacked_ofUnpacked_zero s)
    · rw [roundWithAccuracy_eq hM hc hrounds hrep hle]
      exact nearest_of_finite hx hrounds (unpacked_ofUnpacked_finite hc)
  · obtain ⟨M, q, hfull, hlt, hq, hrounds⟩ := exists_roundsTo_of_ge h
    rw [roundWithAccuracy_eq_finite (Nat.lt_of_lt_of_le (by decide) hfull) hlt (by omega) (.inl hfull) hrounds hrep hle]
    exact nearest_of_infinity h (unpacked_ofUnpacked_of_lt_exponent hfull hq)

theorem nearest_exact (hm : 0 < m) (hle : e ≤ Format.binary64.targetExponent (totalExponent m e)) :
    Nearest (signed s (m * 2 ^ e)) (ofUnpacked (roundWithAccuracy Format.binary64 s m e .exact)) := by
  refine nearest_roundWithAccuracy (by positivity) ?_ hle
  rw [mul_div_cancel_right₀ _ (by positivity)]
  rfl

theorem nearest_round (hm : 0 < m) :
    Nearest (signed s (m * 2 ^ e)) (ofUnpacked (UnpackedFloat.round Format.binary64 s m e)) := by
  have hvalue := decreaseExponent_eq m e (Format.binary64.targetExponent (totalExponent m e))
  have htotal := totalExponent_decreaseExponent hm e (Format.binary64.targetExponent (totalExponent m e))
  have hle : (decreaseExponent m e (Format.binary64.targetExponent (totalExponent m e))).2 ≤
      Format.binary64.targetExponent (totalExponent m e) := by
    simp only [decreaseExponent]
    omega
  have hpos : 0 < (decreaseExponent m e (Format.binary64.targetExponent (totalExponent m e))).1 := by
    simp only [decreaseExponent, Nat.shiftLeft_eq]
    positivity
  rw [← hvalue]
  exact nearest_exact hpos (by rwa [htotal])

theorem nearest_normalize (z : ℤ) :
    Nearest (z * 2 ^ e) (ofUnpacked (UnpackedFloat.normalize Format.binary64 z e t)) := by
  unfold UnpackedFloat.normalize
  rcases lt_trichotomy z 0 with hz | rfl | hz
  · have hsigned : (z * 2 ^ e : ℚ) = signed .negative ((-z).toNat * 2 ^ e) := by
      have hcast : (((-z).toNat : ℤ) : ℚ) = (-z : ℤ) := by rw [Int.toNat_of_nonneg (by omega)]
      rw [signed, ← Int.cast_natCast, hcast, Int.cast_neg]
      ring
    rw [Int.compare_eq_lt.2 hz, hsigned]
    exact nearest_round (by omega)
  · rw [Int.cast_zero, zero_mul]
    exact nearest_zero (unpacked_ofUnpacked_zero t)
  · have hsigned : (z * 2 ^ e : ℚ) = signed .positive (z.toNat * 2 ^ e) := by
      have hcast : ((z.toNat : ℤ) : ℚ) = z := by rw [Int.toNat_of_nonneg (by omega)]
      rw [signed, ← Int.cast_natCast, hcast]
    rw [Int.compare_eq_gt.2 hz, hsigned]
    exact nearest_round (by omega)

/-! ## Operations -/

/-- A finite number on a finer grid. -/
theorem apply_decreaseExponent (s : Sign) (m : ℕ) (h : k ≤ e) :
    (s.apply (decreaseExponent m e k).1 * 2 ^ k : ℚ) = signed s (m * 2 ^ e) := by
  have hexponent : (decreaseExponent m e k).2 = k := by
    simp only [decreaseExponent]
    omega
  have hvalue := decreaseExponent_eq m e k
  rw [hexponent] at hvalue
  rw [← hvalue]
  cases s
  · rw [signed, Sign.apply, Int.cast_neg, Int.cast_natCast]
    ring
  · rfl

/-- A number that is put together again. -/
theorem ofUnpacked_unpacked (h : a.isFinite = true) : ofUnpacked a.unpacked = a := by
  have hunpacked := unpacked_ofUnpacked_unpacked a
  exact eq_of_unpacked hunpacked ((isNaN_ofUnpacked _).trans (isFinite_iff.1 h).1)

/-- **A sum of finite numbers is what the exact sum is rounded to.** -/
theorem nearest_add (ha : a.isFinite = true) (hb : b.isFinite = true) : Nearest (a.toRat + b.toRat) (a + b) := by
  show Nearest _ (ofUnpacked (UnpackedFloat.add Format.binary64 a.unpacked b.unpacked))
  rcases finite_cases ha with ⟨s, hs⟩ | ⟨s, m, e, hm, hs⟩ <;>
    rcases finite_cases hb with ⟨t, ht⟩ | ⟨t, m', e', hm', ht⟩
  · obtain ⟨r, hr⟩ : ∃ r, UnpackedFloat.add Format.binary64 (.zero s) (.zero t) = .zero r := by
      cases s <;> cases t <;> exact ⟨_, rfl⟩
    rw [toRat_of_zero hs, toRat_of_zero ht, add_zero, hs, ht, hr]
    exact nearest_zero (unpacked_ofUnpacked_zero r)
  · rw [toRat_of_zero hs, zero_add, hs]
    have hsum : UnpackedFloat.add Format.binary64 (.zero s) b.unpacked = b.unpacked := by rw [ht]; rfl
    rw [hsum, ofUnpacked_unpacked hb]
    exact nearest_self hb
  · rw [toRat_of_zero ht, add_zero, ht]
    have hsum : UnpackedFloat.add Format.binary64 a.unpacked (.zero t) = a.unpacked := by rw [hs]; rfl
    rw [hsum, ofUnpacked_unpacked ha]
    exact nearest_self ha
  · have hsum : a.toRat + b.toRat = ((s.apply (decreaseExponent m e (min e e')).1 +
        t.apply (decreaseExponent m' e' (min e e')).1 : ℤ) : ℚ) * 2 ^ min e e' := by
      rw [toRat_of_finite hs, toRat_of_finite ht, Int.cast_add, add_mul, apply_decreaseExponent s m (min_le_left ..),
        apply_decreaseExponent t m' (min_le_right ..)]
    rw [hsum, hs, ht]
    exact nearest_normalize _

/-- A difference is a sum with the opposite number. -/
theorem sub_eq_add (a b : Binary64) : a - b = a + -b := by
  show ofUnpacked (UnpackedFloat.sub Format.binary64 a.unpacked b.unpacked) =
    ofUnpacked (UnpackedFloat.add Format.binary64 a.unpacked (-b).unpacked)
  rw [unpacked_neg, sub_eq_add_neg]

theorem nearest_sub (ha : a.isFinite = true) (hb : b.isFinite = true) : Nearest (a.toRat - b.toRat) (a - b) := by
  have hsum := nearest_add ha ((isFinite_neg b).trans hb)
  rwa [toRat_neg hb, show a.toRat + -b.toRat = a.toRat - b.toRat by ring, ← sub_eq_add] at hsum

/-- The product of two numbers is computed with enough places to be rounded. -/
theorem le_targetExponent_mul (h₁ : 0 < m₁) (h₂ : 0 < m₂) (hc₁ : Canonical m₁ e₁) (hc₂ : Canonical m₂ e₂) :
    e₁ + e₂ ≤ Format.binary64.targetExponent (totalExponent (m₁ * m₂) (e₁ + e₂)) := by
  rcases hc₁.full with hfull | rfl
  · exact le_targetExponent (hfull.trans (Nat.le_mul_of_pos_right _ h₂)) _
  rcases hc₂.full with hfull | rfl
  · exact le_targetExponent (hfull.trans (Nat.le_mul_of_pos_left _ h₁)) _
  · rw [targetExponent_eq]
    omega

theorem signed_mul (s t : Sign) (x y : ℚ) : signed s x * signed t y = signed (s * t) (x * y) := by
  cases s <;> cases t
  · exact neg_mul_neg x y
  · exact (by ring : -x * y = -(x * y))
  · exact mul_neg x y
  · rfl

theorem signed_div (s t : Sign) (x y : ℚ) : signed s x / signed t y = signed (s / t) (x / y) := by
  cases s <;> cases t
  · exact neg_div_neg_eq x y
  · exact (by ring : -x / y = -(x / y))
  · exact div_neg x
  · rfl

/-- A product with enough places. -/
theorem nearest_mul_finite (h₁ : 0 < m₁) (h₂ : 0 < m₂)
    (hle : e₁ + e₂ ≤ Format.binary64.targetExponent (totalExponent (m₁ * m₂) (e₁ + e₂))) :
    Nearest (signed s (m₁ * 2 ^ e₁) * signed t (m₂ * 2 ^ e₂))
      (ofUnpacked (UnpackedFloat.mul Format.binary64 (.finite s m₁ e₁ h₁) (.finite t m₂ e₂ h₂))) := by
  have hproduct : (m₁ * 2 ^ e₁ * (m₂ * 2 ^ e₂) : ℚ) = (m₁ * m₂ : ℕ) * 2 ^ (e₁ + e₂) := by
    rw [zpow_add₀ two_ne_zero]
    push_cast
    ring
  rw [signed_mul, hproduct]
  exact nearest_exact (Nat.mul_pos h₁ h₂) hle

theorem nearest_div_finite (h₁ : 0 < m₁) (h₂ : 0 < m₂) :
    Nearest (signed s (m₁ * 2 ^ e₁) / signed t (m₂ * 2 ^ e₂))
      (ofUnpacked (UnpackedFloat.div Format.binary64 (.finite s m₁ e₁ h₁) (.finite t m₂ e₂ h₂))) := by
  rw [signed_div]
  obtain ⟨hrep, hle⟩ := divCore_represents h₁ h₂ e₁ e₂ rfl
  exact nearest_roundWithAccuracy (by positivity) hrep hle

/-- **A product of finite numbers is what the exact product is rounded to.** -/
theorem nearest_mul (ha : a.isFinite = true) (hb : b.isFinite = true) : Nearest (a.toRat * b.toRat) (a * b) := by
  show Nearest _ (ofUnpacked (UnpackedFloat.mul Format.binary64 a.unpacked b.unpacked))
  rcases finite_cases ha with ⟨s, hs⟩ | ⟨s, m, e, hm, hs⟩
  · rw [toRat_of_zero hs, zero_mul, hs]
    rcases finite_cases hb with ⟨t, ht⟩ | ⟨t, m', e', hm', ht⟩ <;> rw [ht] <;> exact nearest_zero (unpacked_ofUnpacked_zero _)
  rcases finite_cases hb with ⟨t, ht⟩ | ⟨t, m', e', hm', ht⟩
  · rw [toRat_of_zero ht, mul_zero, hs, ht]
    exact nearest_zero (unpacked_ofUnpacked_zero _)
  · rw [toRat_of_finite hs, toRat_of_finite ht, hs, ht]
    exact nearest_mul_finite hm hm' (le_targetExponent_mul hm hm' (canonical_of_finite hs) (canonical_of_finite ht))

/-- **A quotient of finite numbers is what the exact quotient is rounded to.** -/
theorem nearest_div (ha : a.isFinite = true) (hb : b.isFinite = true) (hne : b.eq (ofNat 0) = false) :
    Nearest (a.toRat / b.toRat) (a / b) := by
  show Nearest _ (ofUnpacked (UnpackedFloat.div Format.binary64 a.unpacked b.unpacked))
  rcases finite_cases hb with ⟨t, ht⟩ | ⟨t, m', e', hm', ht⟩
  · rw [eq_ofNat_zero.2 ⟨t, ht⟩] at hne
    cases hne
  rcases finite_cases ha with ⟨s, hs⟩ | ⟨s, m, e, hm, hs⟩
  · rw [toRat_of_zero hs, zero_div, hs, ht]
    exact nearest_zero (unpacked_ofUnpacked_zero _)
  · rw [toRat_of_finite hs, toRat_of_finite ht, hs, ht]
    exact nearest_div_finite hm hm'

/-! ## Rounding keeps the order -/

/-- Every value can be given with enough places. -/
theorem exists_represents (hx : 0 < x) :
    ∃ m e acc, Represents (.ofMantissaAndAccuracy m acc) (x / 2 ^ e) ∧
      e ≤ Format.binary64.targetExponent (totalExponent m e) := by
  have hnum : 0 < x.num.toNat := by
    have hpos := Rat.num_pos.2 hx
    omega
  obtain ⟨hrep, hle⟩ := divCore_represents hnum x.den_pos 0 0 rfl
  have hvalue : (x.num.toNat * 2 ^ (0 : ℤ) / (x.den * 2 ^ (0 : ℤ)) : ℚ) = x := by
    have hcast : ((x.num.toNat : ℤ) : ℚ) = x.num := by rw [Int.toNat_of_nonneg (Rat.num_nonneg.2 hx.le)]
    rw [zpow_zero, mul_one, mul_one, ← Int.cast_natCast, hcast, Rat.num_div_den]
  rw [hvalue] at hrep
  exact ⟨_, _, _, hrep, hle⟩

/-- A value lies in the interval of one number only. -/
theorem RoundsTo.unique (hx : 0 < x) (hm : 0 < m) (hc : Canonical m q) (hc' : Canonical m' q') (h : RoundsTo x m q)
    (h' : RoundsTo x m' q') : m' = m ∧ q' = q := by
  -- both are what the value is rounded to
  obtain ⟨k, e, acc, hrep, hle⟩ := exists_represents hx
  have hround := roundWithAccuracy_eq (s := .positive) hm hc h hrep hle
  rcases Nat.eq_zero_or_pos m' with rfl | hm'
  · obtain rfl : q' = -1074 := hc'.full.resolve_left (by norm_num)
    rw [roundWithAccuracy_zero h' hrep hle] at hround
    cases hround
  · rw [roundWithAccuracy_eq hm' hc' h' hrep hle, UnpackedFloat.finite.injEq] at hround
    exact hround.2

/-- Values are rounded to numbers in the same order. -/
theorem RoundsTo.mono (hxy : x ≤ y) (hc : Canonical m q) (hc' : Canonical m' q') (h : RoundsTo x m q)
    (h' : RoundsTo y m' q') : (m * 2 ^ q : ℚ) ≤ m' * 2 ^ q' := by
  rcases le_or_gt x (m' * 2 ^ q') with hle | hgt
  · exact h.le_of_le hc hc'.lt.le hc'.le hle
  -- otherwise the smaller value lies between the number of the larger one and that value
  · rcases Nat.eq_zero_or_pos m with rfl | hm
    · rw [Nat.cast_zero, zero_mul]
      positivity
    · have hpos : 0 < x := lt_of_le_of_lt (by positivity) hgt
      obtain ⟨rfl, rfl⟩ := h.unique hpos hm hc hc' ((RoundsTo.self m' q').between h' hgt.le hxy)
      exact le_rfl

theorem Nearest.roundsTo (h : Nearest x a) (ha : a.isFinite = true) : RoundsTo |x| a.significand a.exponent := by
  cases h with
  | finite _ h => exact h
  | above h => rw [isFinite_of_infinity h] at ha; cases ha
  | below h => rw [isFinite_of_infinity h] at ha; cases ha

theorem Nearest.abs_lt_threshold (h : Nearest x a) (ha : a.isFinite = true) : |x| < threshold :=
  (h.roundsTo ha).lt_threshold (canonical ha)

theorem threshold_pos : 0 < threshold := (zpow_pos two_pos 0).trans (zpow_lt_threshold (by norm_num))

/-- A value below the threshold is rounded to a finite number. -/
theorem Nearest.isFinite (h : Nearest x a) (hx : |x| < threshold) : a.isFinite = true := by
  have hpos := threshold_pos
  obtain ⟨hlow, hhigh⟩ := abs_lt.1 hx
  cases h with
  | finite h => exact h
  | above _ h => exact absurd h (not_le.2 hhigh)
  | below _ h => exact absurd h (not_le.2 hlow)

theorem Nearest.isNaN (h : Nearest x a) : a.isNaN = false := by
  cases h with
  | finite h => exact (isFinite_iff.1 h).1
  | above h => exact isNaN_of_infinity h
  | below h => exact isNaN_of_infinity h

/-- A value that is not negative is rounded to a number that is not negative. -/
theorem Nearest.toRat_nonneg (h : Nearest x a) (ha : a.isFinite = true) (hx : 0 ≤ x) : 0 ≤ a.toRat := by
  cases h with
  | finite _ _ hpos => exact hpos hx
  | above h => rw [isFinite_of_infinity h] at ha; cases ha
  | below h => rw [isFinite_of_infinity h] at ha; cases ha

theorem Nearest.toRat_nonpos (h : Nearest x a) (ha : a.isFinite = true) (hx : x ≤ 0) : a.toRat ≤ 0 := by
  have hneg := h.neg.toRat_nonneg ((isFinite_neg a).trans ha) (neg_nonneg.2 hx)
  rwa [toRat_neg ha, neg_nonneg] at hneg

/-- A value farther from zero is not rounded to a number nearer to zero. -/
theorem Nearest.distance_mono (hxy : |x| ≤ |y|) (ha : Nearest x a) (hb : Nearest y b) (hfinite : a.isFinite = true)
    (hfinite' : b.isFinite = true) : a.distance ≤ b.distance :=
  (ha.roundsTo hfinite).mono hxy (canonical hfinite) (canonical hfinite') (hb.roundsTo hfinite')

theorem Nearest.toRat_le (hxy : x ≤ y) (ha : Nearest x a) (hb : Nearest y b) (hfinite : a.isFinite = true)
    (hfinite' : b.isFinite = true) : a.toRat ≤ b.toRat := by
  rcases le_total 0 x with hx | hx
  · have hy := hx.trans hxy
    have hdistance := ha.distance_mono (by rwa [abs_of_nonneg hx, abs_of_nonneg hy]) hb hfinite hfinite'
    rwa [← abs_toRat, ← abs_toRat, abs_of_nonneg (ha.toRat_nonneg hfinite hx),
      abs_of_nonneg (hb.toRat_nonneg hfinite' hy)] at hdistance
  · rcases le_total 0 y with hy | hy
    · exact (ha.toRat_nonpos hfinite hx).trans (hb.toRat_nonneg hfinite' hy)
    · have hdistance := hb.distance_mono (by rwa [abs_of_nonpos hy, abs_of_nonpos hx, neg_le_neg_iff]) ha hfinite' hfinite
      rwa [← abs_toRat, ← abs_toRat, abs_of_nonpos (hb.toRat_nonpos hfinite' hy),
        abs_of_nonpos (ha.toRat_nonpos hfinite hx), neg_le_neg_iff] at hdistance

/-- A value from the threshold on is rounded to the infinity. -/
theorem Nearest.eq_above (h : Nearest x a) (hx : threshold ≤ x) : a.unpacked = .infinity .positive := by
  have hpos := threshold_pos
  rcases h with ⟨hfinite, hrounds, -, -⟩ | ⟨ha, -⟩ | ⟨-, hx'⟩
  · have hlt := hrounds.lt_threshold (canonical hfinite)
    exact absurd (abs_lt.1 hlt).2 (not_lt.2 hx)
  · exact ha
  · linarith

theorem Nearest.eq_below (h : Nearest x a) (hx : x ≤ -threshold) : a.unpacked = .infinity .negative := by
  have hneg := h.neg.eq_above (le_neg.1 hx)
  rw [unpacked_neg] at hneg
  generalize a.unpacked = u at *
  cases u with
  | infinity s =>
    cases s with
    | negative => rfl
    | positive => cases hneg
  | _ => cases hneg

/-- **Rounding keeps the order of values.** -/
theorem Nearest.le (hxy : x ≤ y) (ha : Nearest x a) (hb : Nearest y b) : a.le b = true := by
  rcases lt_or_ge y threshold with hy | hy
  · rcases lt_or_ge (-threshold) x with hx | hx
    · have hfinite := ha.isFinite (abs_lt.2 ⟨hx, hxy.trans_lt hy⟩)
      have hfinite' := hb.isFinite (abs_lt.2 ⟨hx.trans_le hxy, hy⟩)
      exact (le_iff hfinite hfinite').2 (ha.toRat_le hxy hb hfinite hfinite')
    · exact infinity_le (ha.eq_below hx) hb.isNaN
  · exact le_infinity ha.isNaN (hb.eq_above hy)

/-- A positive value is rounded to the number in whose interval it lies, and to no other. -/
theorem Nearest.unpacked_eq (h : Nearest x a) (hx : 0 < x) (hm : 0 < m) (hc : Canonical m q) (hrounds : RoundsTo x m q) :
    a.unpacked = .finite .positive m q hm := by
  have hlt : |x| < threshold := (abs_of_pos hx).trans_lt (hrounds.lt_threshold hc)
  have ha := h.isFinite hlt
  have hrounds' := h.roundsTo ha
  rw [abs_of_pos hx] at hrounds'
  obtain ⟨hsignificand, hexponent⟩ := hrounds.unique hx hm hc (canonical ha) hrounds'
  rcases finite_cases ha with ⟨s, hs⟩ | ⟨s, m', q', hm', hs⟩
  · rw [(fields_of_zero hs).2.1] at hsignificand
    exact absurd hsignificand hm.ne
  · obtain ⟨-, hm', hq', -⟩ := fields_of_finite hs
    obtain rfl : m' = m := hm'.symm.trans hsignificand
    obtain rfl : q' = q := hq'.symm.trans hexponent
    cases s with
    | positive => exact hs
    | negative =>
      have hnonneg := h.toRat_nonneg ha hx.le
      rw [toRat_of_finite hs] at hnonneg
      exact absurd hnonneg (not_le.2 (neg_lt_zero.2 (by positivity)))

/-- A finite number and an infinity. -/
theorem add_infinity (hc : c.isFinite = true) (ha : a.unpacked = .infinity s) : (c + a).unpacked = .infinity s := by
  show (ofUnpacked (UnpackedFloat.add Format.binary64 c.unpacked a.unpacked)).unpacked = _
  rw [ha]
  rcases finite_cases hc with ⟨t, ht⟩ | ⟨t, m, e, hm, ht⟩ <;> rw [ht] <;> exact unpacked_ofUnpacked_infinity s

theorem isNaN_add (hc : c.isFinite = true) (ha : a.isNaN = false) : (c + a).isNaN = false := by
  rcases not_isNaN_cases ha with hfinite | ⟨s, hs⟩
  · exact (nearest_add hc hfinite).isNaN
  · exact isNaN_of_infinity (add_infinity hc hs)

/-- **Adding a number keeps the order.** -/
theorem le_add_left (hc : c.isFinite = true) (h : a.le b = true) : (c + a).le (c + b) = true := by
  obtain ⟨ha, hb⟩ := isNaN_of_le h
  rcases le_cases h with ⟨hfinite, hfinite'⟩ | hinf | hinf
  · have hle := (le_iff hfinite hfinite').1 h
    exact Nearest.le (by linarith) (nearest_add hc hfinite) (nearest_add hc hfinite')
  · exact infinity_le (add_infinity hc hinf) (isNaN_add hc hb)
  · exact le_infinity (isNaN_add hc ha) (add_infinity hc hinf)

/-! ## Bounds -/

/-- A bound that is a number bounds what a value is rounded to. -/
theorem Nearest.distance_le (h : Nearest x a) (hn : n ≤ 2 ^ 53) (hp : -1074 ≤ p) (hbound : (n * 2 ^ p : ℚ) < threshold)
    (hx : |x| ≤ n * 2 ^ p) : a.isFinite = true ∧ a.distance ≤ n * 2 ^ p := by
  have hfinite := h.isFinite (hx.trans_lt hbound)
  exact ⟨hfinite, (h.roundsTo hfinite).le_of_le (canonical hfinite) hn hp hx⟩

theorem Nearest.distance_le_two_pow (h : Nearest x a) (hp : -1074 ≤ p) (hp' : p < 1024) (hx : |x| ≤ 2 ^ p) :
    a.isFinite = true ∧ a.distance ≤ 2 ^ p := by
  have hone : ((1 : ℕ) : ℚ) * 2 ^ p = 2 ^ p := by rw [Nat.cast_one, one_mul]
  rw [← hone] at hx ⊢
  exact h.distance_le (by norm_num) hp (hone.trans_lt (zpow_lt_threshold hp')) hx

/-- A value is not rounded to more than twice itself. -/
theorem Nearest.distance_le_two_mul (h : Nearest x a) (ha : a.isFinite = true) : a.distance ≤ 2 * |x| :=
  (h.roundsTo ha).le_two_mul_value (abs_nonneg x)

section

variable (ha : a.isFinite = true) (hb : b.isFinite = true) (hn : n ≤ 2 ^ 53) (hp : -1074 ≤ p)
  (hbound : (n * 2 ^ p : ℚ) < threshold)

include ha hb hn hp hbound

/-- A sum of numbers that are together not farther from zero than a number below the threshold. -/
theorem distance_add_le (h : a.distance + b.distance ≤ n * 2 ^ p) :
    (a + b).isFinite = true ∧ (a + b).distance ≤ n * 2 ^ p := by
  refine (nearest_add ha hb).distance_le hn hp hbound ((abs_add_le ..).trans ?_)
  rwa [abs_toRat, abs_toRat]

theorem distance_mul_le (h : a.distance * b.distance ≤ n * 2 ^ p) :
    (a * b).isFinite = true ∧ (a * b).distance ≤ n * 2 ^ p := by
  refine (nearest_mul ha hb).distance_le hn hp hbound ?_
  rwa [abs_mul, abs_toRat, abs_toRat]

theorem distance_div_le (hne : b.eq (ofNat 0) = false) (h : a.distance / b.distance ≤ n * 2 ^ p) :
    (a / b).isFinite = true ∧ (a / b).distance ≤ n * 2 ^ p := by
  refine (nearest_div ha hb hne).distance_le hn hp hbound ?_
  rwa [abs_div, abs_toRat, abs_toRat]

end

end PocketCalc.Binary64
