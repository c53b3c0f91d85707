import PocketCalc.Proofs.Binary64.Signs
import PocketCalc.Proofs.Binary64.Finite

/-!
# Operations on opposite numbers

* `roundWithAccuracy_neg` — rounding carries the sign through;
* `unpacked_ofUnpacked_neg` — so does putting a word together;
* `neg_mul_agrees`, `neg_div_agrees`, `neg_remainder_agrees` — the opposite of the left operand makes the opposite of
  the result.
-/

namespace PocketCalc.Binary64

open Float.Model Float.Model.UnpackedFloat

variable {a b : Binary64} {s t : Sign} {m : ℕ} {e : ℤ} {u v : UnpackedFloat}

/-! ## Signs -/

theorem neg_mul_sign (s t : Sign) : -s * t = -(s * t) := by cases s <;> cases t <;> rfl

theorem neg_div_sign (s t : Sign) : -s / t = -(s / t) := by cases s <;> cases t <;> rfl

theorem roundWithAccuracy_neg (s : Sign) (m : ℕ) (e : ℤ) (acc : Accuracy) :
    UnpackedFloat.roundWithAccuracy Format.binary64 (-s) m e acc =
      (UnpackedFloat.roundWithAccuracy Format.binary64 s m e acc).neg := by
  simp only [UnpackedFloat.roundWithAccuracy]
  split
  · rfl
  · rfl

theorem neg_mul (u v : UnpackedFloat) :
    UnpackedFloat.mul Format.binary64 u.neg v = (UnpackedFloat.mul Format.binary64 u v).neg := by
  cases u <;> cases v <;>
    simp only [UnpackedFloat.neg, UnpackedFloat.mul, neg_mul_sign, roundWithAccuracy_neg]

theorem neg_div (u v : UnpackedFloat) :
    UnpackedFloat.div Format.binary64 u.neg v = (UnpackedFloat.div Format.binary64 u v).neg := by
  cases u <;> cases v <;>
    simp only [UnpackedFloat.neg, UnpackedFloat.div, neg_div_sign, roundWithAccuracy_neg]

/-! ## Words -/

theorem unpack_packComponents_neg (s : Sign) (exponent : BitVec 11) (mantissa : BitVec 52) :
    UnpackedFloat.unpack Format.binary64 (packComponents Format.binary64 (-s) exponent mantissa) =
      (UnpackedFloat.unpack Format.binary64 (packComponents Format.binary64 s exponent mantissa)).neg := by
  have hsign (t : Sign) : Sign.ofBitVec t.toBitVec = t := by cases t <;> rfl
  have hfields (t : Sign) := unpack_eq (packComponents Format.binary64 t exponent mantissa) rfl rfl rfl
  simp only [← toNat_unpackExponent, ← toNat_unpackMantissa, unpackSign_packComponents, unpackExponent_packComponents,
    unpackMantissa_packComponents, hsign] at hfields
  rw [hfields, hfields]
  split
  · split
    · rfl
    · rfl
  · split
    · split
      · rfl
      · rfl
    · rfl

/-- Putting a word together carries the sign through. -/
theorem unpacked_ofUnpacked_neg (u : UnpackedFloat) : (ofUnpacked u.neg).unpacked = (ofUnpacked u).unpacked.neg := by
  cases u with
  | notANumber => rfl
  | infinity s => rw [UnpackedFloat.neg, unpacked_ofUnpacked_infinity, unpacked_ofUnpacked_infinity]; rfl
  | zero s => rw [UnpackedFloat.neg, unpacked_ofUnpacked_zero, unpacked_ofUnpacked_zero]; rfl
  | finite s m e hm =>
    show UnpackedFloat.unpack Format.binary64 (UnpackedFloat.pack Format.binary64 (.finite (-s) m e hm)) =
      (UnpackedFloat.unpack Format.binary64 (UnpackedFloat.pack Format.binary64 (.finite s m e hm))).neg
    simp only [UnpackedFloat.pack]
    split
    · exact unpack_packComponents_neg s _ _
    · split
      · exact unpack_packComponents_neg s _ _
      · exact unpack_packComponents_neg s _ _

/-! ## Operations -/

theorem neg_mul_agrees (a b : Binary64) : (-a * b).Agrees (-(a * b)) := by
  have hleft : (-a * b).unpacked =
      (ofUnpacked (UnpackedFloat.mul Format.binary64 (-a).unpacked b.unpacked)).unpacked := rfl
  have hright : (a * b).unpacked =
      (ofUnpacked (UnpackedFloat.mul Format.binary64 a.unpacked b.unpacked)).unpacked := rfl
  rw [Agrees, unpacked_neg, hleft, hright, unpacked_neg, neg_mul, unpacked_ofUnpacked_neg]
  exact .same _

theorem neg_div_agrees (a b : Binary64) : (-a / b).Agrees (-(a / b)) := by
  have hleft : (-a / b).unpacked =
      (ofUnpacked (UnpackedFloat.div Format.binary64 (-a).unpacked b.unpacked)).unpacked := rfl
  have hright : (a / b).unpacked =
      (ofUnpacked (UnpackedFloat.div Format.binary64 a.unpacked b.unpacked)).unpacked := rfl
  rw [Agrees, unpacked_neg, hleft, hright, unpacked_neg, neg_div, unpacked_ofUnpacked_neg]
  exact .same _

/-- A finite number and its opposite have the same significand and the same exponent, and if it is not zero, the
opposite signs. -/
theorem fields_neg (h : a.isFinite = true) : (-a).significand = a.significand ∧ (-a).exponent = a.exponent ∧
    (a.significand = 0 ∨ (-a).isNegative = !a.isNegative) := by
  rcases finite_cases h with ⟨s, hs⟩ | ⟨s, m, e, hm, hs⟩
  · have hneg : (-a).unpacked = .zero (-s) := by rw [unpacked_neg, hs]; rfl
    obtain ⟨-, hm, he⟩ := fields_of_zero hs
    obtain ⟨-, hm', he'⟩ := fields_of_zero hneg
    exact ⟨hm'.trans hm.symm, he'.trans he.symm, .inl hm⟩
  · have hneg : (-a).unpacked = .finite (-s) m e hm := by rw [unpacked_neg, hs]; rfl
    obtain ⟨-, hm, he, -⟩ := fields_of_finite hs
    obtain ⟨-, hm', he', -⟩ := fields_of_finite hneg
    refine ⟨hm'.trans hm.symm, he'.trans he.symm, .inr ?_⟩
    cases s with
    | positive => rw [isNegative_of_positive hs, isNegative_of_negative hneg]; rfl
    | negative => rw [isNegative_of_negative hs, isNegative_of_positive hneg]; rfl

theorem ofScaled_not_agrees (negative : Bool) (m : ℕ) (q : ℤ) :
    (ofScaled (!negative) m q).Agrees (-(ofScaled negative m q)) := by
  have hround (s : Sign) : UnpackedFloat.round Format.binary64 (-s) m q =
      (UnpackedFloat.round Format.binary64 s m q).neg := roundWithAccuracy_neg s _ _ _
  have hscaled (negative : Bool) : ofScaled negative m q =
      ofUnpacked (UnpackedFloat.round Format.binary64 (if negative then .negative else .positive) m q) := rfl
  rw [Agrees, unpacked_neg, hscaled, hscaled, ← unpacked_ofUnpacked_neg, ← hround]
  cases negative with
  | true => exact .same _
  | false => exact .same _

theorem neg_remainder_agrees (a b : Binary64) : (remainder (-a) b).Agrees (-(remainder a b)) := by
  unfold remainder
  rw [isNaN_neg, isInfinite_neg]
  split
  · exact .refl _
  next hnumbers =>
    simp only [Bool.or_eq_true, not_or, Bool.not_eq_true, decide_eq_true_eq] at hnumbers
    obtain ⟨⟨⟨hnan, -⟩, hinf⟩, -⟩ := hnumbers
    obtain ⟨hm, he, hsign⟩ := fields_neg (isFinite_iff.2 ⟨hnan, hinf⟩)
    split
    · exact .refl _
    · rw [hm, he]
      rcases hsign with hzero | hsign
      · simp only [hzero, Nat.zero_mul, Nat.zero_mod]
        exact (ofScaled_zero_agrees _ _ _).trans (ofScaled_not_agrees a.isNegative 0 _)
      · rw [hsign]
        exact ofScaled_not_agrees _ _ _

end PocketCalc.Binary64
