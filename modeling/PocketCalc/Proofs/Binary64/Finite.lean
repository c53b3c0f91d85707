import PocketCalc.Proofs.Binary64.Factorial

/-!
# Results that are finite

* `isInfinite_ofUnpacked_finite` — a word with an exponent in range is not infinite;
* `exponent_of_roundWithAccuracy` — rounding adds at most one to an exponent that bounds the value;
* `isFinite_sqrt` — the root of a finite number that is not negative is finite;
* `product` — the product that a factorial is, whatever it is.
-/

namespace PocketCalc.Binary64

open Float.Model Float.Model.UnpackedFloat

variable {a u : Binary64} {s s' : Sign} {m R : ℕ} {e q : ℤ} {acc : Accuracy}

theorem isFinite_neg (a : Binary64) : (-a).isFinite = a.isFinite := by
  rw [Bool.eq_iff_iff, isFinite_iff, isFinite_iff, isNaN_neg, isInfinite_neg]

/-! ## Exponents in range -/

theorem isInfinite_ofUnpacked_finite (hm : 0 < m) (he : e ≤ 971) :
    (ofUnpacked (.finite s m e hm)).isInfinite = false := by
  have hfield (b : BitVec 64) (h : @unpackExponent Format.binary64 b ≠ -1#_) :
      (UnpackedFloat.unpack Format.binary64 b).isInf = false := by
    simp only [UnpackedFloat.unpack, if_neg h]
    split
    · split <;> rfl
    · rfl
  rw [isInfinite_eq]
  show (UnpackedFloat.unpack Format.binary64 (UnpackedFloat.pack Format.binary64 (.finite s m e hm))).isInf = false
  simp only [UnpackedFloat.pack]
  rw [if_neg (by simp only [Format.exponentBias]; omega)]
  split
  · refine hfield _ ?_
    rw [unpackExponent_packComponents, ne_eq, ← BitVec.toNat_inj]
    simp only [BitVec.toNat_ofNat, BitVec.neg_one_eq_allOnes, BitVec.toNat_allOnes, Format.exponentBias]
    omega
  · refine hfield _ ?_
    rw [unpackExponent_packComponents]
    decide

/-- The significand that is left after a shift, with a unit for the rounding, has this many places. -/
theorem log2_roundedMantissa_le (m k : ℕ) (acc : Accuracy) :
    ((ExtendedMantissa.ofMantissaAndAccuracy m acc) >>> k).roundedMantissa.log2 ≤ m.log2 + 1 - k := by
  have hem : (ExtendedMantissa.ofMantissaAndAccuracy m acc).mantissa = m := by
    rcases acc with _ | (_ | _ | _) <;> rfl
  have hshift := mantissa_shiftRight (.ofMantissaAndAccuracy m acc) k
  obtain ⟨-, hle⟩ := roundedMantissa_bounds ((ExtendedMantissa.ofMantissaAndAccuracy m acc) >>> k)
  rw [hshift, hem] at hle
  generalize ((ExtendedMantissa.ofMantissaAndAccuracy m acc) >>> k).roundedMantissa = r at hle
  have hquotient : m / 2 ^ k < 2 ^ (m.log2 + 1 - k) := by
    rw [Nat.div_lt_iff_lt_mul (by positivity), ← pow_add]
    refine Nat.lt_log2_self.trans_le ?_
    exact Nat.pow_le_pow_right two_pos (by omega)
  have hr : r < 2 ^ (m.log2 + 1 - k + 1) := by
    have hunit : 0 < 2 ^ (m.log2 + 1 - k) := by positivity
    rw [pow_succ]
    omega
  rcases Nat.eq_zero_or_pos r with rfl | hpos
  · simp
  · exact Nat.lt_succ_iff.1 ((Nat.log2_lt hpos.ne').2 hr)

/-- Rounding adds at most one to a bound of the exponent. -/
theorem exponent_of_roundWithAccuracy {B : ℤ} (he : e ≤ B) (hm : m.log2 + e ≤ B + 52) (hB : -1074 ≤ B) {hR : 0 < R}
    (h : roundWithAccuracy Format.binary64 s m e acc = .finite s' R q hR) : q ≤ B + 1 := by
  unfold roundWithAccuracy shiftToTargetExponent shiftToExponent at h
  simp only at h
  have htotal : Format.binary64.targetExponent (totalExponent m e) ≤ B := by
    rw [targetExponent_eq, totalExponent]
    omega
  generalize hk : (Format.binary64.targetExponent (totalExponent m e) - e).toNat = k at h
  have hlog := log2_roundedMantissa_le m k acc
  generalize ((ExtendedMantissa.ofMantissaAndAccuracy m acc) >>> k).roundedMantissa = r at h hlog
  split at h
  · cases h
  · rw [UnpackedFloat.finite.injEq] at h
    obtain ⟨-, -, rfl⟩ := h
    rw [targetExponent_eq (totalExponent r _), totalExponent]
    omega

/-! ## Roots -/

/-- A root has half as many places as the number. -/
theorem log2_sqrtCore_le (hm : m < 2 ^ 53) (he : e ≤ 971) :
    (sqrtCore Format.binary64 m e).2.1 ≤ 970 ∧
      (sqrtCore Format.binary64 m e).1.log2 + (sqrtCore Format.binary64 m e).2.1 ≤ 512 := by
  have hdiv : e.ediv 2 = e / 2 := rfl
  simp only [sqrtCore, hdiv, Nat.shiftLeft_eq]
  generalize ht : min (e / 2) _ = t
  have hle : t ≤ e / 2 := by omega
  refine ⟨by omega, ?_⟩
  generalize hk : (e - 2 * t).toNat = k
  have hroot := Nat.sqrt_le' (m * 2 ^ k)
  generalize (m * 2 ^ k).sqrt = r at hroot
  rcases Nat.eq_zero_or_pos r with rfl | hpos
  · simp only [Nat.log2_zero]
    omega
  · have hbound : r ^ 2 < 2 ^ (53 + k) := by
      rw [pow_add]
      exact hroot.trans_lt (Nat.mul_lt_mul_of_pos_right hm (by positivity))
    have hlow : (2 ^ r.log2) ^ 2 ≤ r ^ 2 := Nat.pow_le_pow_left (Nat.log2_self_le hpos.ne') 2
    have hlog : 2 * r.log2 < 53 + k := by
      rw [← pow_mul, Nat.mul_comm] at hlow
      exact (Nat.pow_lt_pow_iff_right one_lt_two).1 (hlow.trans_lt hbound)
    omega

/-- **The root of a finite number that is not negative is finite.** -/
theorem isFinite_sqrt (h : a.isFinite = true) (hpos : a.lt (ofNat 0) = false) : a.sqrt.isFinite = true := by
  refine isFinite_iff.2 ⟨isNaN_sqrt (isFinite_iff.1 h).1 hpos, ?_⟩
  show (ofUnpacked (UnpackedFloat.sqrt Format.binary64 a.unpacked)).isInfinite = false
  rw [lt_eq, unpacked_ofNat_zero] at hpos
  rw [isFinite_eq] at h
  generalize hu : a.unpacked = u at h hpos
  cases u with
  | notANumber => cases h
  | infinity s => cases h
  | zero s => cases s <;> rfl
  | finite s m e hm =>
    cases s with
    | negative => cases hpos
    | positive =>
      obtain ⟨hlt, -, hle, -⟩ := canonical_of_finite hu
      obtain ⟨hexp, hlog⟩ := log2_sqrtCore_le hlt hle
      simp only [UnpackedFloat.sqrt]
      generalize hround : roundWithAccuracy Format.binary64 .positive _ _ _ = r
      cases r with
      | notANumber => rfl
      | infinity s =>
        simp only [roundWithAccuracy] at hround
        split at hround <;> cases hround
      | zero s => cases s <;> rfl
      | finite s R q hR =>
        exact isInfinite_ofUnpacked_finite hR (exponent_of_roundWithAccuracy hexp (by omega) (by decide) hround)

/-! ## Products -/

/-- `acc · k · (k + 1) ⋯` with `count` factors after `acc`, whether it is finite or not. -/
def product (acc : Binary64) (k : ℕ) : (count : ℕ) → Binary64
  | 0 => acc
  | count + 1 => product (acc * ofNat k) (k + 1) count

theorem eq_product_of_productFrom {acc : Binary64} {k count : ℕ} (h : productFrom acc k count = .ok u) :
    u = product acc k count := by
  induction count generalizing acc k with
  | zero =>
    cases h
    rfl
  | succ count ih =>
    simp only [productFrom] at h
    split at h
    · cases h
    · exact ih h

theorem eq_product_of_factorial (h : factorial a = .ok u) : u = product 1 2 (a.roundAbs - 1) := by
  simp only [factorial] at h
  split at h
  · cases h
  · exact eq_product_of_productFrom h

end PocketCalc.Binary64
