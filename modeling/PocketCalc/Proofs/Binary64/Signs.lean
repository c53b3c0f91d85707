import PocketCalc.Proofs.Binary64.Agreement

/-!
# Signs and kinds of numbers

* `HasSign s u` — a zero, a finite number or an infinity with the sign `s`; the word of it has that sign;
* `finite_cases` — a finite number is a zero, or `±m · 2 ^ q` with a positive `m`;
* `eq_of_unpacked` — a number that is no NaN is determined by what it stands for;
* how zeros, positive and negative numbers compare with zero, and which of them have a minus sign.
-/

namespace PocketCalc.Binary64

open Float.Model Float.Model.UnpackedFloat

variable {v w : Binary64} {s : Sign} {m : ℕ} {e : ℤ}

/-! ## The sign of a word -/

theorem sign_eq (v : Binary64) : v.sign = if 1 ≤ v.word / 2 ^ 63 then .negative else .positive := by
  have hword : Nat.pow 2 63 ≤ v.word ↔ 1 ≤ v.word / 2 ^ 63 := by
    rw [Nat.le_div_iff_mul_le (Nat.two_pow_pos 63), one_mul]
  rw [sign]
  simp only [hword]

/-- A word that is put together has the sign that was put into it. -/
theorem sign_ofUnpacked_finite (hm : 0 < m) : (ofUnpacked (.finite s m e hm)).sign = s := by
  have hcomponents (exponent : BitVec 11) (mantissa : BitVec 52) :
      (if 1 ≤ (@packComponents Format.binary64 s exponent mantissa).toNat / 2 ^ 63 then Sign.negative else .positive) =
        s := by
    have hexponent := exponent.isLt
    have hmantissa := mantissa.isLt
    rw [toNat_packComponents]
    cases s with
    | positive =>
      rw [if_neg]
      show ¬ 1 ≤ (0 * 2 ^ 63 + exponent.toNat * 2 ^ 52 + mantissa.toNat) / 2 ^ 63
      omega
    | negative =>
      rw [if_pos]
      show 1 ≤ (1 * 2 ^ 63 + exponent.toNat * 2 ^ 52 + mantissa.toNat) / 2 ^ 63
      omega
  have hword : (ofUnpacked (.finite s m e hm)).word =
    (UnpackedFloat.pack Format.binary64 (.finite s m e hm)).toNat := rfl
  rw [sign_eq, hword]
  simp only [UnpackedFloat.pack]
  split
  · cases s <;> rfl
  · split <;> exact hcomponents _ _

/-- A zero, a finite number or an infinity with this sign. -/
inductive HasSign (s : Sign) : UnpackedFloat → Prop where
  | zero : HasSign s (.zero s)
  | infinity : HasSign s (.infinity s)
  | finite (m : ℕ) (e : ℤ) (hm : 0 < m) : HasSign s (.finite s m e hm)

variable {u : UnpackedFloat}

theorem HasSign.sign_ofUnpacked (h : HasSign s u) : (ofUnpacked u).sign = s := by
  cases h with
  | zero => cases s <;> rfl
  | infinity => cases s <;> rfl
  | finite m e hm => exact sign_ofUnpacked_finite hm

theorem HasSign.roundWithAccuracy (s : Sign) (m : ℕ) (e : ℤ) (acc : Accuracy) :
    HasSign s (UnpackedFloat.roundWithAccuracy Format.binary64 s m e acc) := by
  unfold UnpackedFloat.roundWithAccuracy
  simp only
  split
  · exact .zero
  · exact .finite _ _ _

theorem HasSign.mul_finite (h : HasSign .positive u) (hm : 0 < m) :
    HasSign .positive (UnpackedFloat.mul Format.binary64 u (.finite .positive m e hm)) := by
  cases h with
  | zero => exact .zero
  | infinity => exact .infinity
  | finite m' e' hm' => exact .roundWithAccuracy ..

theorem HasSign.div_finite (h : HasSign .positive u) (hm : 0 < m) :
    HasSign .positive (UnpackedFloat.div Format.binary64 u (.finite .positive m e hm)) := by
  cases h with
  | zero => exact .zero
  | infinity => exact .infinity
  | finite m' e' hm' => exact .roundWithAccuracy ..

/-! ## Kinds -/

variable {hm : 0 < m}

theorem finite_cases (h : v.isFinite = true) :
    (∃ s, v.unpacked = .zero s) ∨ ∃ s m e hm, v.unpacked = .finite s m e hm := by
  rw [isFinite_eq] at h
  generalize v.unpacked = u at *
  cases u with
  | notANumber => cases h
  | infinity s => cases h
  | zero s => exact .inl ⟨s, rfl⟩
  | finite s m e hm => exact .inr ⟨s, m, e, hm, rfl⟩

/-- A number that is no NaN is determined by what it stands for. -/
theorem eq_of_unpacked (h : v.unpacked = w.unpacked) (hv : v.isNaN = false) : v = w := by
  have hw : w.isNaN = false := by rwa [isNaN_eq, ← h, ← isNaN_eq]
  have hfloat := float_eq_of_unpacked h
  obtain ⟨f, n, hn⟩ := v
  obtain ⟨g, k, hk⟩ := w
  have hn' : n = false := by
    cases n
    · rfl
    · exact absurd (hn rfl) (by rw [show f.isNaN = false from hv]; decide)
  have hk' : k = false := by
    cases k
    · rfl
    · exact absurd (hk rfl) (by rw [show g.isNaN = false from hw]; decide)
  subst hn' hk'
  cases hfloat
  rfl

theorem kinds_of_finite (hu : v.unpacked = .finite s m e hm) : v.isNaN = false ∧ v.isInfinite = false := by
  rw [isNaN_eq, isInfinite_eq, hu]
  exact ⟨rfl, rfl⟩

theorem isFinite_of_unpacked (hu : v.unpacked = .finite s m e hm) : v.isFinite = true := isFinite_iff.2 (kinds_of_finite hu)

theorem kinds_of_zero (hu : v.unpacked = .zero s) : v.isNaN = false ∧ v.isInfinite = false := by
  rw [isNaN_eq, isInfinite_eq, hu]
  exact ⟨rfl, rfl⟩

theorem eq_zero_of_unpacked (hu : v.unpacked = .zero .positive) : v = 0 :=
  eq_of_unpacked (hu.trans unpacked_ofNat_zero.symm) (kinds_of_zero hu).1

/-! ## Minus signs -/

theorem isNegative_of_finite (hu : v.unpacked = .finite s m e hm) : v.isNegative = true ↔ s = .negative := by
  obtain ⟨hsign, -⟩ := fields_of_finite hu
  rw [isNegative, (kinds_of_finite hu).1, ← hsign, sign]
  by_cases h : Nat.pow 2 63 ≤ v.word <;> simp [h]

theorem isNegative_of_positive (hu : v.unpacked = .finite .positive m e hm) : v.isNegative = false := by
  refine Bool.eq_false_iff.2 fun h => ?_
  cases (isNegative_of_finite hu).1 h

theorem isNegative_of_negative (hu : v.unpacked = .finite .negative m e hm) : v.isNegative = true :=
  (isNegative_of_finite hu).2 rfl

theorem unpacked_neg_of_negative (hu : v.unpacked = .finite .negative m e hm) :
    (-v).unpacked = .finite .positive m e hm := by
  rw [unpacked_neg, hu]
  rfl

/-! ## Comparison with zero -/

theorem lt_zero_of_zero (hu : v.unpacked = .zero s) : v.lt 0 = false := by
  show v.lt (Binary64.ofNat 0) = false
  rw [lt_eq, hu, unpacked_ofNat_zero]
  rfl

theorem lt_zero_of_positive (hu : v.unpacked = .finite .positive m e hm) : v.lt 0 = false := by
  show v.lt (Binary64.ofNat 0) = false
  rw [lt_eq, hu, unpacked_ofNat_zero]
  rfl

theorem lt_zero_of_negative (hu : v.unpacked = .finite .negative m e hm) : v.lt 0 = true := by
  show v.lt (Binary64.ofNat 0) = true
  rw [lt_eq, hu, unpacked_ofNat_zero]
  rfl

theorem eq_zero_of_zero (hu : v.unpacked = .zero s) : v.eq 0 = true := eq_ofNat_zero.2 ⟨s, hu⟩

theorem eq_zero_of_finite (hu : v.unpacked = .finite s m e hm) : v.eq 0 = false := by
  show v.eq (Binary64.ofNat 0) = false
  rw [eq_eq, hu, unpacked_ofNat_zero]
  cases s <;> rfl

end PocketCalc.Binary64
