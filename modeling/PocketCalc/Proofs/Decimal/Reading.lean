import PocketCalc.Numeral.Reader
import PocketCalc.Proofs.Binary64.Nearest
import PocketCalc.Proofs.Decimal.Shortest

/-!
# The number nearest to a decimal

* `nearest_toBinary64` — the number of a decimal is what its value is rounded to;
* `toBinary64_of_roundsTo`, `isFinite_toBinary64` — so it is the number in whose interval the value lies, and finite if the
  value is below the threshold;
* `sign_toBinary64` — it has no minus sign.
-/

namespace PocketCalc

open Binary64 Float.Model Float.Model.UnpackedFloat

namespace Decimal

/-! ## The powers of ten -/

/-- The table of powers of ten, entry by entry: with 53 binary places, the first of them a one. -/
theorem fields_powerOfTen : ∀ i : Fin Float.exactlyRepresentablePowersOfTen.size,
    (ofFloat Float.exactlyRepresentablePowersOfTen[i]).unpacked.isFinite = true ∧
      (ofFloat Float.exactlyRepresentablePowersOfTen[i]).word < Nat.pow 2 63 ∧
      (ofFloat Float.exactlyRepresentablePowersOfTen[i]).significand * 2 ^ (10 ^ i.val).log2 = 10 ^ i.val * 2 ^ 52 ∧
      (ofFloat Float.exactlyRepresentablePowersOfTen[i]).exponent = (10 ^ i.val).log2 - 52 := by
  decide +kernel

/-- The first powers of ten are numbers. -/
theorem unpacked_powerOfTen {i : ℕ} (hi : i < Float.exactlyRepresentablePowersOfTen.size) :
    ∃ m e hm, (ofFloat Float.exactlyRepresentablePowersOfTen[i]).unpacked = .finite .positive m e hm ∧
      (m * 2 ^ e : ℚ) = 10 ^ i := by
  obtain ⟨hfinite, hword, hsignificand, hexponent⟩ := fields_powerOfTen ⟨i, hi⟩
  simp only [Fin.getElem_fin] at hfinite hword hsignificand hexponent
  generalize ofFloat Float.exactlyRepresentablePowersOfTen[i] = a at *
  have hsign : a.sign = .positive := if_neg (Nat.not_le.2 hword)
  have hlog : 2 ^ (10 ^ i).log2 ≤ 10 ^ i := Nat.log2_self_le (by positivity)
  have hfull : 2 ^ 52 ≤ a.significand := by
    refine Nat.le_of_mul_le_mul_right ?_ (Nat.two_pow_pos (10 ^ i).log2)
    rw [hsignificand, Nat.mul_comm]
    exact Nat.mul_le_mul_right _ hlog
  generalize hu : a.unpacked = u at hfinite
  cases u with
  | notANumber => cases hfinite
  | infinity s => cases hfinite
  | zero s =>
    rw [(fields_of_zero hu).2.1] at hfull
    exact absurd hfull (by decide)
  | finite s m e hm =>
    obtain ⟨rfl, rfl, rfl, -⟩ := fields_of_finite hu
    refine ⟨_, _, hm, by rw [hsign], ?_⟩
    rw [hexponent, zpow_sub₀ two_ne_zero, zpow_natCast, mul_div_assoc', div_eq_iff (by positivity)]
    exact_mod_cast hsignificand

/-! ## The number of a decimal -/

variable {d : Decimal} {k M : ℕ} {q : ℤ}

/-- A natural number that fits is exact. -/
theorem unpacked_natCast (hk : 0 < k) (hlt : k < 2 ^ 53) :
    ∃ m e hm, (ofFloat k.toUInt64.toFloat).unpacked = .finite .positive m e hm ∧ (m * 2 ^ e : ℚ) = k := by
  obtain ⟨M, q, hM, hc, hvalue⟩ := exists_canonical (p := 0) hk hlt (by norm_num) (by norm_num)
  have hself := RoundsTo.self M q
  rw [hvalue] at hself
  rw [zpow_zero, mul_one] at hvalue
  refine ⟨M, q, hM, ?_, hvalue⟩
  rw [ofFloat_toUInt64_toFloat hlt, normalize_natCast hk, round_eq hM hc hk hself, unpacked_ofUnpacked_finite hc]

theorem toRat_natCast (hlt : k < 2 ^ 53) :
    (ofFloat k.toUInt64.toFloat).isFinite = true ∧ (ofFloat k.toUInt64.toFloat).toRat = k := by
  rcases Nat.eq_zero_or_pos k with rfl | hk
  · have hzero : (ofFloat (0 : ℕ).toUInt64.toFloat).unpacked = .zero .positive := rfl
    exact ⟨rfl, (toRat_of_zero hzero).trans Nat.cast_zero.symm⟩
  · obtain ⟨m, e, hm, hu, hvalue⟩ := unpacked_natCast hk hlt
    exact ⟨isFinite_of_unpacked hu, (toRat_of_finite hu).trans hvalue⟩

/-- A decimal with a large exponent is beyond all numbers. -/
theorem threshold_le_of_lt_exponent {e : ℤ} (hk : 0 < k) (he : 2048 < e) : threshold ≤ k * 10 ^ e := by
  have hone : (1 : ℚ) ≤ k := by exact_mod_cast hk
  calc threshold ≤ 2 ^ (1024 : ℤ) := threshold_le
    _ ≤ 2 ^ e := zpow_le_zpow_right₀ one_le_two (by omega)
    _ ≤ 10 ^ e := zpow_le_zpow_left₀ (by omega) (by norm_num) (by norm_num)
    _ ≤ k * 10 ^ e := le_mul_of_one_le_left (by positivity) hone

/-- A decimal with a small exponent is in the interval of zero. -/
theorem roundsTo_zero_of_exponent_lt {e : ℤ} (he : e < -(2048 + k.log2)) : RoundsTo (k * 10 ^ e) 0 (-1074) := by
  have hten : (10 : ℚ) ^ e ≤ 2 ^ e := by
    have hinv := inv_anti₀ (by positivity)
      (zpow_le_zpow_left₀ (n := -e) (by omega) (by norm_num : (0 : ℚ) ≤ 2) (by norm_num : (2 : ℚ) ≤ 10))
    rwa [zpow_neg, zpow_neg, inv_inv, inv_inv] at hinv
  have hlog : (k : ℚ) ≤ 2 ^ ((k.log2 : ℤ) + 1) := by exact_mod_cast Nat.lt_log2_self.le
  have hsmall : (k * 10 ^ e : ℚ) ≤ 2 ^ (-1074 - 2 : ℤ) := by
    calc (k * 10 ^ e : ℚ) ≤ 2 ^ ((k.log2 : ℤ) + 1) * 2 ^ e := by gcongr
      _ = 2 ^ ((k.log2 : ℤ) + 1 + e) := (zpow_add₀ two_ne_zero _ _).symm
      _ ≤ 2 ^ (-1074 - 2 : ℤ) := zpow_le_zpow_right₀ one_le_two (by omega)
  have hpos : (0 : ℚ) < 2 ^ (-1074 - 2 : ℤ) := by positivity
  have hvalue : (0 : ℚ) ≤ k * 10 ^ e := by positivity
  refine ⟨?_, ?_, fun hodd => absurd hodd (by decide)⟩
  · rw [if_neg (by decide), Nat.cast_zero]
    linarith
  · rw [Nat.cast_zero]
    linarith

/-- The powers of ten that are no numbers are multiplied and divided exactly, too. -/
theorem nearest_ofScientific (k : ℕ) (e : ℤ) :
    Nearest (k * 10 ^ e) (ofUnpacked (UnpackedFloat.ofScientific Format.binary64 k e)) := by
  have hbits : (2 : ℤ) ^ Format.binary64.exponentBits = 2048 := rfl
  rw [UnpackedFloat.ofScientific, hbits]
  split
  next hk =>
    rw [hk, Nat.cast_zero, zero_mul]
    exact nearest_zero (unpacked_ofUnpacked_zero _)
  next hk =>
    split
    next hlarge =>
      exact .above (unpacked_ofUnpacked_infinity _) (threshold_le_of_lt_exponent (Nat.pos_of_ne_zero hk) hlarge)
    split
    next hsmall =>
      refine nearest_of_zero ?_ (unpacked_ofUnpacked_zero .positive)
      rw [abs_of_nonneg (by positivity)]
      exact roundsTo_zero_of_exponent_lt hsmall
    split
    next hnonneg =>
      have hfull : 2 ^ 52 ≤ k <<< Format.binary64.mantissaBits * 10 ^ e.toNat := by
        rw [Nat.shiftLeft_eq, Nat.mul_right_comm]
        refine Nat.le_trans (by decide) (Nat.le_mul_of_pos_left (2 ^ Format.binary64.mantissaBits) ?_)
        exact Nat.mul_pos (Nat.pos_of_ne_zero hk) (Nat.pow_pos (by decide))
      have hvalue : (k * 10 ^ e : ℚ) = signed .positive ((k <<< Format.binary64.mantissaBits : ℕ) *
          2 ^ (-Format.binary64.mantissaBits : ℤ)) * signed .positive ((10 ^ e.toNat : ℕ) * 2 ^ (0 : ℤ)) := by
        have hten : (10 : ℚ) ^ e = 10 ^ e.toNat := by rw [← zpow_natCast, Int.toNat_of_nonneg hnonneg]
        rw [signed, signed, hten, Nat.shiftLeft_eq, zpow_neg, zpow_natCast, Nat.cast_mul, Nat.cast_pow, Nat.cast_two,
          zpow_zero, mul_one, mul_inv_cancel_right₀ (by positivity), Nat.cast_pow, Nat.cast_ofNat]
      rw [hvalue]
      exact nearest_mul_finite _ _ (le_targetExponent hfull _)
    next hneg =>
      have hvalue : (k * 10 ^ e : ℚ) =
          signed .positive (k * 2 ^ (0 : ℤ)) / signed .positive ((10 ^ (-e).toNat : ℕ) * 2 ^ (0 : ℤ)) := by
        have hten : (10 : ℚ) ^ e = (10 ^ (-e).toNat)⁻¹ := by
          rw [← zpow_natCast, ← zpow_neg]
          congr 1
          omega
        rw [signed, signed, hten, zpow_zero, mul_one, mul_one, div_eq_mul_inv, Nat.cast_pow, Nat.cast_ofNat]
      rw [hvalue]
      exact nearest_div_finite _ _

/-- **The number of a decimal is what its value is rounded to.** -/
theorem nearest_toBinary64 (d : Decimal) : Nearest d.value d.toBinary64 := by
  obtain ⟨k, e⟩ := d
  simp only [value, toBinary64, Float.ofScientific]
  split
  next hfast =>
    have hi : e.natAbs < Float.exactlyRepresentablePowersOfTen.size := Nat.lt_succ_of_le hfast.2
    obtain ⟨hnatural, hnatural'⟩ := toRat_natCast hfast.1
    obtain ⟨m, i, hm, hu, hpower⟩ := unpacked_powerOfTen hi
    have hten := toRat_of_finite hu
    rw [signed, hpower, ← zpow_natCast] at hten
    split
    next hneg =>
      have hneg : (e.natAbs : ℤ) = -e := by have := of_decide_eq_true hneg; omega
      have hquotient := nearest_div hnatural (isFinite_of_unpacked hu) (eq_zero_of_finite hu)
      rwa [hnatural', hten, hneg, zpow_neg, div_inv_eq_mul] at hquotient
    next hneg =>
      have hneg : (e.natAbs : ℤ) = e := by have := of_decide_eq_false (Bool.eq_false_iff.2 hneg); omega
      have hproduct := nearest_mul hnatural (isFinite_of_unpacked hu)
      rwa [hnatural', hten, hneg] at hproduct
  next =>
    have hexponent : (if decide (e < 0) = true then Int.negOfNat e.natAbs else Int.ofNat e.natAbs) = e := by
      simp only [Int.negOfNat_eq, Int.ofNat_eq_natCast, decide_eq_true_eq]
      omega
    rw [hexponent]
    exact nearest_ofScientific k e

/-- A decimal in the interval of a number is read as that number. -/
theorem toBinary64_of_roundsTo {v : Binary64} {hM : 0 < M} (hu : v.unpacked = .finite .positive M q hM)
    (h : RoundsTo d.value M q) : d.toBinary64 = v := by
  have hpos : 0 < d.value := lt_of_lt_of_le (by positivity) (h.zpow_le hM)
  have heq := (nearest_toBinary64 d).unpacked_eq hpos hM (canonical_of_finite hu) h
  exact eq_of_unpacked (heq.trans hu.symm) (nearest_toBinary64 d).isNaN

/-- The number of a decimal below the threshold is finite. -/
theorem isFinite_toBinary64 (h : d.value < threshold) : d.toBinary64.isFinite = true := by
  have hnonneg : 0 ≤ d.value := by
    unfold value
    positivity
  exact (nearest_toBinary64 d).isFinite ((abs_of_nonneg hnonneg).trans_lt h)

/-- Zero units of any power of ten are zero. -/
theorem toBinary64_zero (e : ℤ) : toBinary64 ⟨0, e⟩ = 0 := by
  have hsmall : ∀ i : Fin 23, toBinary64 ⟨0, (i : ℤ)⟩ = 0 ∧ toBinary64 ⟨0, -(i : ℤ)⟩ = 0 := by decide +kernel
  rcases Nat.lt_or_ge e.natAbs 23 with hlt | hge
  · obtain ⟨hpos, hneg⟩ := hsmall ⟨e.natAbs, hlt⟩
    rcases Int.natAbs_eq e with heq | heq
    · rwa [← heq] at hpos
    · rwa [← heq] at hneg
  · simp only [toBinary64, Float.ofScientific]
    split
    next hfast => exact absurd hfast.2 (Nat.not_le.2 hge)
    next =>
      refine eq_zero_of_unpacked ?_
      show (ofUnpacked (UnpackedFloat.ofScientific Format.binary64 0 _)).unpacked = _
      rw [UnpackedFloat.ofScientific, dif_pos rfl]
      exact unpacked_ofUnpacked_zero .positive

theorem hasSign_natCast (hlt : k < 2 ^ 53) : HasSign .positive (ofFloat k.toUInt64.toFloat).unpacked := by
  rcases Nat.eq_zero_or_pos k with rfl | hk
  · exact .zero
  · obtain ⟨m, e, hm, hu, -⟩ := unpacked_natCast hk hlt
    rw [hu]
    exact .finite m e hm

theorem hasSign_ofScientific (k : ℕ) (e : ℤ) :
    HasSign .positive (UnpackedFloat.ofScientific Format.binary64 k e) := by
  unfold UnpackedFloat.ofScientific
  split
  · exact .zero
  · split
    · exact .infinity
    · split
      · exact .zero
      · split
        · exact HasSign.mul_finite (.finite _ _ _) _
        · exact HasSign.div_finite (.finite _ _ _) _

/-- The number of a decimal has no minus sign. -/
theorem sign_toBinary64 (d : Decimal) : d.toBinary64.sign = .positive := by
  obtain ⟨k, e⟩ := d
  simp only [toBinary64, Float.ofScientific]
  split
  next hfast =>
    have hi : e.natAbs < Float.exactlyRepresentablePowersOfTen.size := Nat.lt_succ_of_le hfast.2
    have hk := hasSign_natCast hfast.1
    obtain ⟨m, i, hm, hu, -⟩ := unpacked_powerOfTen hi
    split
    · have hdiv := (hk.div_finite (e := i) hm).sign_ofUnpacked
      rw [← hu] at hdiv
      exact hdiv
    · have hmul := (hk.mul_finite (e := i) hm).sign_ofUnpacked
      rw [← hu] at hmul
      exact hmul
  next => exact (hasSign_ofScientific k _).sign_ofUnpacked

end Decimal

end PocketCalc
