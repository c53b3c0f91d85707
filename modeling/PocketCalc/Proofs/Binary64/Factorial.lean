import PocketCalc.Proofs.Binary64.Agreement

/-!
# Results that are numbers

* `isNaN_ofUnpacked` — putting a word together makes no NaN;
* `isNaN_sqrt` — the root of a number that is not negative is a number;
* `IsLarge` — a finite number that is at least one; products of such numbers are at least one or beyond all numbers;
* `isLarge_of_factorial`, `isNaN_of_factorial` — so a factorial is finite, at least one, and a number.
-/

namespace PocketCalc.Binary64

open Float.Model Float.Model.UnpackedFloat

variable {a b u : Binary64} {s : Sign} {m : ℕ} {e : ℤ}

theorem isNaN_ofUnpacked (w : UnpackedFloat) : (ofUnpacked w).isNaN = w.isNaN := by
  cases w with
  | notANumber => rfl
  | infinity s => cases s <;> rfl
  | zero s => cases s <;> rfl
  | finite s m e hm =>
    rw [isNaN_eq]
    show (UnpackedFloat.unpack Format.binary64 (UnpackedFloat.pack Format.binary64 (.finite s m e hm))).isNaN = false
    have hones (b : BitVec 64) (h : @unpackExponent Format.binary64 b ≠ -1#_) :
        (UnpackedFloat.unpack Format.binary64 b).isNaN = false := by
      simp only [UnpackedFloat.unpack, if_neg h]
      split
      · split <;> rfl
      · rfl
    simp only [UnpackedFloat.pack]
    split
    · cases s <;> rfl
    next hsmall =>
      split
      · refine hones _ ?_
        rw [unpackExponent_packComponents, ne_eq, ← BitVec.toNat_inj]
        simp only [BitVec.toNat_ofNat, BitVec.neg_one_eq_allOnes, BitVec.toNat_allOnes]
        omega
      · refine hones _ ?_
        rw [unpackExponent_packComponents]
        decide

/-- The root of a number that is not negative is a number. -/
theorem isNaN_sqrt (hnan : a.isNaN = false) (h : a.lt (ofNat 0) = false) : a.sqrt.isNaN = false := by
  rw [show a.sqrt = ofUnpacked (UnpackedFloat.sqrt Format.binary64 a.unpacked) from rfl, isNaN_ofUnpacked]
  rw [lt_eq, unpacked_ofNat_zero] at h
  rw [isNaN_eq] at hnan
  generalize a.unpacked = u at *
  cases u with
  | notANumber => cases hnan
  | infinity s => cases s <;> first | rfl | cases h
  | zero s => rfl
  | finite s m e hm =>
    cases s with
    | negative => cases h
    | positive =>
      simp only [UnpackedFloat.sqrt, roundWithAccuracy]
      split <;> rfl

/-! ## Numbers that are at least one -/

/-- The number is finite, and at least one in size. -/
def IsLarge (a : Binary64) : Prop := ∃ s m e, ∃ hm : 0 < m, a.unpacked = .finite s m e hm ∧ 2 ^ 52 ≤ m ∧ -52 ≤ e

theorem mantissa_shiftRight (em : ExtendedMantissa) (n : ℕ) : (em >>> n).mantissa = em.mantissa / 2 ^ n := by
  show (n.repeat ExtendedMantissa.shiftRightOne em).mantissa = _
  induction n with
  | zero => simp [Nat.repeat]
  | succ n ih => rw [Nat.repeat, pow_succ, ← Nat.div_div_eq_div_mul, ← ih]; rfl

theorem roundedMantissa_bounds (em : ExtendedMantissa) :
    em.mantissa ≤ em.roundedMantissa ∧ em.roundedMantissa ≤ em.mantissa + 1 := by
  rcases em with ⟨m, _ | _, _ | _⟩ <;>
    simp only [ExtendedMantissa.roundedMantissa, ExtendedMantissa.accuracy, Accuracy.roundToNearestEven] <;> omega

theorem div_two_pow_bounds (hm : 52 ≤ m.log2) :
    2 ^ 52 ≤ m / 2 ^ (m.log2 - 52) ∧ m / 2 ^ (m.log2 - 52) < 2 ^ 53 := by
  have hpos : m ≠ 0 := by
    rintro rfl
    simp at hm
  constructor
  · rw [Nat.le_div_iff_mul_le (by positivity), ← pow_add, Nat.add_sub_cancel' hm]
    exact Nat.log2_self_le hpos
  · rw [Nat.div_lt_iff_lt_mul (by positivity), ← pow_add, show 53 + (m.log2 - 52) = m.log2 + 1 by omega]
    exact Nat.lt_log2_self

/-- A value of at least one is rounded to a number that is at least one, or beyond all numbers. -/
theorem roundWithAccuracy_large (hm : 52 ≤ m.log2) (he : 0 ≤ m.log2 + e) :
    ∃ R q, ∃ hR : 0 < R, roundWithAccuracy Format.binary64 s m e .exact = .finite s R q hR ∧
      2 ^ 52 ≤ R ∧ R < 2 ^ 53 ∧ -52 ≤ q := by
  have htarget : Format.binary64.targetExponent (totalExponent m e) = m.log2 + e - 52 := by
    rw [targetExponent_eq, totalExponent]
    omega
  have hshift : (m.log2 + e - 52 - e).toNat = m.log2 - 52 := by omega
  obtain ⟨hlow, hhigh⟩ := div_two_pow_bounds hm
  simp only [roundWithAccuracy]
  rw [show shiftToTargetExponent Format.binary64 m e .exact =
    (ExtendedMantissa.ofMantissaAndAccuracy m .exact >>> (m.log2 - 52), m.log2 + e - 52) by
      simp only [shiftToTargetExponent, shiftToExponent, htarget, hshift]
      exact Prod.ext rfl (by simp only; omega)]
  have hmantissa := mantissa_shiftRight (.ofMantissaAndAccuracy m .exact) (m.log2 - 52)
  generalize ExtendedMantissa.ofMantissaAndAccuracy m .exact >>> (m.log2 - 52) = em at *
  obtain ⟨hge, hle⟩ := roundedMantissa_bounds em
  rw [hmantissa] at hge hle
  simp only [ExtendedMantissa.ofMantissaAndAccuracy] at hge hle
  generalize em.roundedMantissa = R at *
  rcases Nat.lt_or_ge R (2 ^ 53) with hR | hR
  · simp only [shiftToTargetExponent_self (q := m.log2 + e - 52) (by omega) hR (by omega)]
    exact ⟨R, _, by omega, dif_neg (by omega), by omega, hR, by omega⟩
  · obtain rfl : R = 2 ^ 53 := by omega
    have hcarry := shiftToTargetExponent_carry (q := m.log2 + e - 51) (by omega)
    rw [show (m.log2 + e - 51 - 1 : ℤ) = m.log2 + e - 52 by omega] at hcarry
    simp only [hcarry]
    exact ⟨2 ^ 52, _, by decide, dif_neg (by decide), le_rfl, by decide, by omega⟩

theorem isLarge_or_isInfinite (hm : 52 ≤ m.log2) (he : 0 ≤ m.log2 + e) :
    (ofUnpacked (roundWithAccuracy Format.binary64 s m e .exact)).IsLarge ∨
      (ofUnpacked (roundWithAccuracy Format.binary64 s m e .exact)).isInfinite = true := by
  obtain ⟨R, q, hR, heq, hlow, hhigh, hq⟩ := roundWithAccuracy_large (s := s) hm he
  rw [heq]
  rcases Int.lt_or_le 971 q with hbig | hsmall
  · right
    rw [isInfinite_eq, unpacked_ofUnpacked_of_lt_exponent hlow hbig]
    rfl
  · exact .inl ⟨s, R, q, hR, unpacked_ofUnpacked_finite ⟨hhigh, by omega, hsmall, .inl hlow⟩, hlow, hq⟩

theorem IsLarge.mul (ha : a.IsLarge) (hb : b.IsLarge ∨ b.isInfinite = true) :
    (a * b).IsLarge ∨ (a * b).isInfinite = true := by
  obtain ⟨s, m, e, hm, hua, hfull, he⟩ := ha
  show (ofUnpacked (UnpackedFloat.mul Format.binary64 a.unpacked b.unpacked)).IsLarge ∨
    (ofUnpacked (UnpackedFloat.mul Format.binary64 a.unpacked b.unpacked)).isInfinite = true
  rw [hua]
  rcases hb with ⟨t, m', e', hm', hub, hfull', he'⟩ | hinf
  · rw [hub]
    have hproduct : 2 ^ 52 * 2 ^ 52 ≤ m * m' := Nat.mul_le_mul hfull hfull'
    have hlog : 104 ≤ (m * m').log2 := (Nat.le_log2 (Nat.mul_pos hm hm').ne').2 (by omega)
    exact isLarge_or_isInfinite (by omega) (by omega)
  · right
    rw [isInfinite_eq] at hinf
    generalize b.unpacked = u at *
    cases u with
    | infinity t =>
      rw [isInfinite_eq,
        show UnpackedFloat.mul Format.binary64 (.finite s m e hm) (.infinity t) = .infinity (s * t)
        from rfl, unpacked_ofUnpacked_infinity]
      rfl
    | _ => cases hinf

/-- A natural number that fits is converted exactly. -/
theorem ofFloat_toUInt64_toFloat {k : ℕ} (h : k < 2 ^ 53) :
    ofFloat k.toUInt64.toFloat = ofUnpacked (UnpackedFloat.normalize Format.binary64 k 0 .positive) := by
  have hk : k.toUInt64.toNat = k := by
    rw [Nat.toUInt64_eq, UInt64.toNat_ofNat']
    omega
  show ofUnpacked (UnpackedFloat.normalize Format.binary64 (k.toUInt64.toNat : ℤ) 0 .positive) = _
  rw [hk]

theorem normalize_natCast {k : ℕ} (hk : 0 < k) :
    UnpackedFloat.normalize Format.binary64 k 0 .positive = UnpackedFloat.round Format.binary64 .positive k 0 := by
  have hcompare : compare (k : ℤ) 0 = .gt := Int.compare_eq_gt.2 (by omega)
  simp only [UnpackedFloat.normalize, hcompare, Int.toNat_natCast]

theorem IsLarge.of_agrees (h : a.Agrees b) (hb : b.IsLarge ∨ b.isInfinite = true) :
    a.IsLarge ∨ a.isInfinite = true := by
  rcases hb with ⟨s, m, e, hm, hu, hfull, he⟩ | hinf
  · left
    rw [Agrees, hu] at h
    generalize hv : a.unpacked = v at h
    cases h
    exact ⟨s, m, e, hm, hv, hfull, he⟩
  · exact .inr (h.isInfinite.trans hinf)

theorem isLarge_ofNat {k : ℕ} (hk : 0 < k) : (ofNat k).IsLarge ∨ (ofNat k).isInfinite = true := by
  rcases Nat.lt_or_ge k (2 ^ 53) with hsmall | hbig
  · have hvalue : ofNat k = ofFloat k.toUInt64.toFloat * ofFloat Float.exactlyRepresentablePowersOfTen[0] := by
      show ofFloat (Float.ofScientific k false 0) = _
      rw [Float.ofScientific, dif_pos ⟨hsmall, by decide⟩]
      rfl
    rw [hvalue]
    refine IsLarge.of_agrees (mul_one_agrees _ (eq_ofNat_one.2 rfl)) ?_
    rw [ofFloat_toUInt64_toFloat hsmall, normalize_natCast hk]
    simp only [UnpackedFloat.round, decreaseExponent, Nat.shiftLeft_eq]
    have hlog : k.log2 < 53 := (Nat.log2_lt hk.ne').2 hsmall
    refine isLarge_or_isInfinite ?_ ?_ <;>
      rw [log2_mul_two_pow hk, targetExponent_eq, totalExponent] <;> omega
  · have hvalue : ofNat k = ofUnpacked (UnpackedFloat.ofScientific Format.binary64 k 0) := by
      show ofFloat (Float.ofScientific k false 0) = _
      rw [Float.ofScientific, dif_neg (by omega)]
      rfl
    have hbits : (2 : ℤ) ^ Format.binary64.exponentBits = 2048 := rfl
    rw [hvalue, UnpackedFloat.ofScientific, hbits, dif_neg (by omega), if_neg (by decide), if_neg (by omega),
      if_pos le_rfl]
    simp only [UnpackedFloat.mul, Nat.shiftLeft_eq]
    have hlog : 53 ≤ k.log2 := (Nat.le_log2 hk.ne').2 hbig
    refine isLarge_or_isInfinite ?_ ?_ <;> rw [Int.toNat_zero, pow_zero, mul_one, log2_mul_two_pow hk]
    · omega
    · simp only [Format.mantissaBits]
      omega

theorem IsLarge.isFinite (h : a.IsLarge) : a.isFinite = true := by
  obtain ⟨s, m, e, hm, hu, -⟩ := h
  rw [isFinite_eq, hu]
  rfl

/-- A product of numbers that are at least one is at least one, as long as it is finite. -/
theorem isLarge_productFrom {acc : Binary64} {k count : ℕ} (hacc : acc.IsLarge) (hk : 0 < k)
    (h : productFrom acc k count = .ok u) : u.IsLarge := by
  induction count generalizing acc k with
  | zero =>
    cases h
    exact hacc
  | succ count ih =>
    simp only [productFrom] at h
    split at h
    · cases h
    next hfinite =>
      exact ih ((hacc.mul (isLarge_ofNat hk)).resolve_right hfinite) (Nat.succ_pos k) h

theorem isLarge_of_factorial (h : factorial a = .ok u) : u.IsLarge := by
  simp only [factorial] at h
  split at h
  · cases h
  · exact isLarge_productFrom ⟨_, _, _, _, unpacked_ofNat_one, le_rfl, le_rfl⟩ two_pos h

theorem isNaN_of_factorial (h : factorial a = .ok u) : u.isNaN = false :=
  (isFinite_iff.1 (isLarge_of_factorial h).isFinite).1

end PocketCalc.Binary64
