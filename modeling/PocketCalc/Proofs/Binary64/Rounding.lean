import Mathlib
import PocketCalc.Proofs.Binary64.Packing

/-!
# Rounding to the nearest number

* `Represents` — a significand with its two residual bits stands for a rational number, and shifts keep what it
  stands for;
* `RoundsTo` — the rational number lies in the interval that belongs to a number, halfway to its neighbours;
* `roundWithAccuracy_eq`, `round_eq` — rounding gives the number in whose interval the value lies;
* `divCore_represents` — a quotient is computed with enough places to be rounded.
-/

namespace PocketCalc.Binary64

open Float.Model Float.Model.UnpackedFloat

/-! ## Residual bits -/

/-- The significand and its residual bits stand for `y`. -/
def Represents (em : ExtendedMantissa) (y : ℚ) : Prop :=
  match em with
  | ⟨m, false, false⟩ => y = m
  | ⟨m, false, true⟩ => m < y ∧ y < m + 1 / 2
  | ⟨m, true, false⟩ => y = m + 1 / 2
  | ⟨m, true, true⟩ => m + 1 / 2 < y ∧ y < m + 1

variable {em : ExtendedMantissa} {y : ℚ}

theorem Represents.le (h : Represents em y) : em.mantissa ≤ y := by
  rcases em with ⟨m, _ | _, _ | _⟩ <;> simp only [Represents] at h <;> linarith

theorem Represents.lt (h : Represents em y) : y < em.mantissa + 1 := by
  rcases em with ⟨m, _ | _, _ | _⟩ <;> simp only [Represents] at h <;> linarith

theorem Represents.shiftRightOne (h : Represents em y) : Represents em.shiftRightOne (y / 2) := by
  rcases em with ⟨m, r, s⟩
  have hm : (m : ℚ) = 2 * (m / 2 : ℕ) + (m % 2 : ℕ) := by exact_mod_cast (Nat.div_add_mod m 2).symm
  -- the lowest place of the significand becomes the first residual bit
  rcases Nat.mod_two_eq_zero_or_one m with hbit | hbit <;>
    rw [hbit] at hm <;> push_cast at hm <;>
    rcases r with _ | _ <;> rcases s with _ | _ <;>
    simp only [Represents, ExtendedMantissa.shiftRightOne, hbit] at h ⊢ <;>
    first
      | (simp; linarith)
      | (simp; constructor <;> linarith)

theorem Represents.shiftRight (h : Represents em y) (n : ℕ) : Represents (em >>> n) (y / 2 ^ n) := by
  show Represents (n.repeat ExtendedMantissa.shiftRightOne em) _
  induction n with
  | zero => simpa [Nat.repeat] using h
  | succ n ih =>
    rw [Nat.repeat, pow_succ, ← div_div]
    exact ih.shiftRightOne

/-- The nearest whole number, and of two the even one, is what the significand is rounded to. -/
theorem Represents.roundedMantissa (h : Represents em y) {n : ℕ} (hlow : n - 1 / 2 ≤ y) (hhigh : y ≤ n + 1 / 2)
    (htie : n % 2 = 1 → n - 1 / 2 < y ∧ y < n + 1 / 2) : em.roundedMantissa = n := by
  rcases em with ⟨m, _ | _, _ | _⟩ <;> simp only [Represents] at h <;>
    simp only [ExtendedMantissa.roundedMantissa, ExtendedMantissa.accuracy, Accuracy.roundToNearestEven]
  · have h1 : (2 * m : ℚ) ≤ 2 * n + 1 := by linarith
    have h2 : (2 * n : ℚ) ≤ 2 * m + 1 := by linarith
    norm_cast at h1 h2
    omega
  · have h1 : (m : ℚ) < n + 1 := by linarith
    have h2 : (n : ℚ) < m + 1 := by linarith
    norm_cast at h1 h2
    omega
  · have h1 : (m : ℚ) ≤ n := by linarith
    have h2 : (n : ℚ) ≤ m + 1 := by linarith
    norm_cast at h1 h2
    rcases Nat.mod_two_eq_zero_or_one n with heven | hodd
    · omega
    · -- an odd number is not reached from halfway
      obtain ⟨h3, h4⟩ := htie hodd
      have h5 : (m : ℚ) < n := by linarith
      have h6 : (n : ℚ) < m + 1 := by linarith
      norm_cast at h5 h6
      omega
  · have h1 : (m : ℚ) < n := by linarith
    have h2 : (n : ℚ) < m + 2 := by linarith
    norm_cast at h1 h2
    omega

/-! ## The interval of a number -/

/-- The exponent of a number with this many places before the point. -/
theorem targetExponent_eq (t : ℤ) : Format.binary64.targetExponent t = max (t - 53) (-1074) := rfl

/-- The rational number lies in the interval of the numbers that are rounded to `m · 2 ^ e`: it goes halfway to
the neighbours, of which the one below is nearer at a power of two, and has its ends only if `m` is even. -/
structure RoundsTo (x : ℚ) (m : ℕ) (e : ℤ) : Prop where
  low : (4 * m - if m = 2 ^ 52 ∧ -1074 < e then 1 else 2) * 2 ^ (e - 2) ≤ x
  high : x ≤ (4 * m + 2) * 2 ^ (e - 2)
  tie : m % 2 = 1 → (4 * m - 2) * 2 ^ (e - 2) < x ∧ x < (4 * m + 2) * 2 ^ (e - 2)

variable {x : ℚ} {m M : ℕ} {e q : ℤ} {s : Sign} {acc : Accuracy}

theorem RoundsTo.low' (h : RoundsTo x m e) : (4 * m - 2) * 2 ^ (e - 2) ≤ x := by
  have hlow := h.low
  have hpos : (0 : ℚ) < 2 ^ (e - 2) := by positivity
  split at hlow <;> nlinarith

theorem RoundsTo.self (m : ℕ) (e : ℤ) : RoundsTo (m * 2 ^ e) m e := by
  have hpos : (0 : ℚ) < 2 ^ (e - 2) := by positivity
  have hpow : (m : ℚ) * 2 ^ e = 4 * m * 2 ^ (e - 2) := by
    rw [zpow_sub₀ two_ne_zero]
    norm_num
    ring
  rw [hpow]
  refine ⟨?_, by linarith, fun _ => ⟨by linarith, by linarith⟩⟩
  split <;> linarith

/-- A value that is rounded to a number has no more places than the number can have. -/
theorem RoundsTo.lt_zpow (h : RoundsTo x M q) (hlt : M < 2 ^ 53) : x < 2 ^ (q + 53) := by
  have hM : (M : ℚ) + 1 ≤ 2 ^ 53 := by exact_mod_cast hlt
  rw [show q + 53 = 55 + (q - 2) by omega, zpow_add₀ two_ne_zero]
  refine h.high.trans_lt ?_
  gcongr
  linarith

theorem RoundsTo.zpow_le (h : RoundsTo x M q) (hM : 0 < M) : 2 ^ (q - 2) ≤ x := by
  have hM' : (1 : ℚ) ≤ M := by exact_mod_cast hM
  refine le_trans ?_ h.low'
  exact le_mul_of_one_le_left (by positivity) (by linarith)

theorem zpow_log2_le {e : ℤ} (hm : 0 < m) : (2 : ℚ) ^ ((m.log2 : ℤ) + e) ≤ m * 2 ^ e := by
  rw [zpow_add₀ two_ne_zero, zpow_natCast]
  have hlog : ((2 ^ m.log2 : ℕ) : ℚ) ≤ m := Nat.cast_le.2 (Nat.log2_self_le hm.ne')
  push_cast at hlog
  gcongr

theorem lt_zpow_log2 (m : ℕ) (e : ℤ) : (m + 1) * 2 ^ e ≤ (2 : ℚ) ^ (totalExponent m e) := by
  rw [totalExponent, zpow_add₀ two_ne_zero]
  have hlog : ((m + 1 : ℕ) : ℚ) ≤ ((2 ^ (m.log2 + 1) : ℕ) : ℚ) := Nat.cast_le.2 Nat.lt_log2_self
  push_cast at hlog
  gcongr
  exact_mod_cast hlog

/-- A value between `m` and `m + 1` units of `2 ^ e` is rounded on the grid of the number in whose interval it
lies, or on a grid with half the unit if it lies below a power of two. -/
theorem targetExponent_of_roundsTo (hlt : M < 2 ^ 53) (hmin : -1074 ≤ q) (hfull : 2 ^ 52 ≤ M ∨ q = -1074)
    (hx : RoundsTo x M q) (hlow : m * 2 ^ e ≤ x) (hhigh : x < (m + 1) * 2 ^ e)
    (hle : e ≤ Format.binary64.targetExponent (totalExponent m e)) :
    Format.binary64.targetExponent (totalExponent m e) = q ∨
      Format.binary64.targetExponent (totalExponent m e) = q - 1 ∧ M = 2 ^ 52 ∧ -1074 < q ∧ x < 2 ^ (q + 52) := by
  have hupper := hx.lt_zpow hlt
  have hpos : (0 : ℚ) < 2 ^ (q - 2) := by positivity
  have htotal : x < 2 ^ totalExponent m e := hhigh.trans_le (lt_zpow_log2 m e)
  have hgrid : Format.binary64.targetExponent (totalExponent m e) ≤ q := by
    rw [targetExponent_eq] at hle ⊢
    rcases Nat.eq_zero_or_pos m with rfl | hm
    · simp only [totalExponent, Nat.log2_zero] at hle ⊢
      omega
    · have hpow := (zpow_log2_le hm).trans (hlow.trans hupper.le)
      have hstrict : (m.log2 : ℤ) + e < q + 53 :=
        (zpow_lt_zpow_iff_right₀ one_lt_two).1 (((zpow_log2_le hm).trans hlow).trans_lt hupper)
      simp only [totalExponent]
      omega
  rcases hfull with hfull | rfl
  · rcases eq_or_lt_of_le hmin with rfl | hq
    · left
      rw [targetExponent_eq] at hgrid ⊢
      omega
    · have hfull' : (2 : ℚ) ^ 52 ≤ M := by exact_mod_cast hfull
      have hlower : (2 : ℚ) ^ (q + 51) ≤ x := by
        rw [show q + 51 = 53 + (q - 2) by omega, zpow_add₀ two_ne_zero]
        refine le_trans ?_ hx.low'
        gcongr
        linarith
      have htotal' : q + 51 < totalExponent m e := (zpow_lt_zpow_iff_right₀ one_lt_two).1 (hlower.trans_lt htotal)
      rw [targetExponent_eq] at hgrid ⊢
      rcases eq_or_lt_of_le hgrid with heq | hless
      · exact .inl heq
      · have htwo : totalExponent m e = q + 52 := by omega
        rw [htwo] at htotal
        refine .inr ⟨by omega, ?_, hq, htotal⟩
        rw [show q + 52 = 54 + (q - 2) by omega, zpow_add₀ two_ne_zero] at htotal
        have hM' : (4 * M - 2 : ℚ) < 2 ^ 54 := by
          have := hx.low'.trans_lt htotal
          exact_mod_cast lt_of_mul_lt_mul_right this hpos.le
        have hM'' : (4 * M : ℚ) < 2 ^ 54 + 2 := by linarith
        norm_cast at hM''
        omega
  · left
    rw [targetExponent_eq] at hgrid ⊢
    omega

/-! ## Rounding -/

/-- A significand that fits stays as it is. -/
theorem shiftToTargetExponent_self (hM : 0 < M) (hlt : M < 2 ^ 53) (hq : -1074 ≤ q) :
    shiftToTargetExponent Format.binary64 M q .exact = (⟨M, false, false⟩, q) := by
  have hlog := (Nat.log2_lt hM.ne').2 hlt
  have hzero : (Format.binary64.targetExponent (totalExponent M q) - q).toNat = 0 := by
    rw [targetExponent_eq, totalExponent]
    omega
  simp only [shiftToTargetExponent, shiftToExponent, hzero]
  simp only [Nat.cast_zero, add_zero]
  rfl

/-- A significand that has become a power of two is halved. -/
theorem shiftToTargetExponent_carry (hq : -1074 < q) :
    shiftToTargetExponent Format.binary64 (2 ^ 53) (q - 1) .exact = (⟨2 ^ 52, false, false⟩, q) := by
  have hone : (Format.binary64.targetExponent (totalExponent (2 ^ 53) (q - 1)) - (q - 1)).toNat = 1 := by
    rw [targetExponent_eq, totalExponent, Nat.log2_two_pow]
    omega
  simp only [shiftToTargetExponent, shiftToExponent, hone]
  rw [Nat.cast_one, sub_add_cancel]
  rfl

theorem RoundsTo.nearest (hx : RoundsTo x M q) :
    (M : ℚ) - 1 / 2 ≤ x / 2 ^ q ∧ x / 2 ^ q ≤ M + 1 / 2 ∧
      (M % 2 = 1 → (M : ℚ) - 1 / 2 < x / 2 ^ q ∧ x / 2 ^ q < M + 1 / 2) := by
  have hpos : (0 : ℚ) < 2 ^ q := by positivity
  have hquarter : (2 : ℚ) ^ (q - 2) = 2 ^ q / 4 := by
    rw [zpow_sub₀ two_ne_zero]
    norm_num
  have hlow := hx.low'
  have hhigh := hx.high
  have htie := hx.tie
  rw [hquarter] at hlow hhigh htie
  rw [le_div_iff₀ hpos, div_le_iff₀ hpos, lt_div_iff₀ hpos, div_lt_iff₀ hpos]
  refine ⟨by linarith, by linarith, fun hodd => ?_⟩
  obtain ⟨h1, h2⟩ := htie hodd
  exact ⟨by linarith, by linarith⟩

/-- Rounding looks for the last place, whether a word can hold the exponent or not. -/
theorem roundWithAccuracy_eq_finite (hM : 0 < M) (hlt : M < 2 ^ 53) (hmin : -1074 ≤ q) (hfull : 2 ^ 52 ≤ M ∨ q = -1074)
    (hx : RoundsTo x M q) (hrep : Represents (.ofMantissaAndAccuracy m acc) (x / 2 ^ e))
    (hle : e ≤ Format.binary64.targetExponent (totalExponent m e)) :
    roundWithAccuracy Format.binary64 s m e acc = .finite s M q hM := by
  have hpos : (0 : ℚ) < 2 ^ e := by positivity
  have hmantissa : (ExtendedMantissa.ofMantissaAndAccuracy m acc).mantissa = m := by
    rcases acc with _ | _ | _ | _ <;> rfl
  have hlow := hrep.le
  have hhigh := hrep.lt
  rw [hmantissa, le_div_iff₀ hpos] at hlow
  rw [hmantissa, div_lt_iff₀ hpos] at hhigh
  have hgrid := targetExponent_of_roundsTo hlt hmin hfull hx hlow hhigh hle
  -- the first shift, to the grid
  have hshift := hrep.shiftRight (Format.binary64.targetExponent (totalExponent m e) - e).toNat
  have hexp : e + (Format.binary64.targetExponent (totalExponent m e) - e).toNat =
      Format.binary64.targetExponent (totalExponent m e) := by omega
  have hvalue : x / 2 ^ e / 2 ^ (Format.binary64.targetExponent (totalExponent m e) - e).toNat =
      x / 2 ^ (Format.binary64.targetExponent (totalExponent m e)) := by
    rw [div_div, ← zpow_natCast, ← zpow_add₀ two_ne_zero, hexp]
  rw [hvalue] at hshift
  simp only [roundWithAccuracy]
  rw [show shiftToTargetExponent Format.binary64 m e acc =
    (ExtendedMantissa.ofMantissaAndAccuracy m acc >>> (Format.binary64.targetExponent (totalExponent m e) - e).toNat,
      Format.binary64.targetExponent (totalExponent m e)) from Prod.ext rfl hexp]
  simp only
  rcases hgrid with hgrid | ⟨hgrid, rfl, hq, hbelow⟩
  · rw [hgrid] at hshift ⊢
    obtain ⟨hnear_low, hnear_high, hnear_tie⟩ := hx.nearest
    rw [hshift.roundedMantissa hnear_low hnear_high hnear_tie, shiftToTargetExponent_self hM hlt hmin,
      dif_neg hM.ne']
  · -- below a power of two, where the rounding carries
    have hcarry : (2 ^ 53 : ℕ) - 1 / 2 ≤ x / 2 ^ (q - 1) ∧ x / 2 ^ (q - 1) ≤ (2 ^ 53 : ℕ) + 1 / 2 := by
      have hpos' : (0 : ℚ) < 2 ^ (q - 1) := by positivity
      have hlow := hx.low
      rw [if_pos ⟨rfl, hq⟩, show q - 2 = q - 1 - 1 by omega, zpow_sub_one₀ two_ne_zero (q - 1)] at hlow
      rw [show q + 52 = 53 + (q - 1) by omega, zpow_add₀ two_ne_zero] at hbelow
      rw [le_div_iff₀ hpos', div_le_iff₀ hpos']
      push_cast at hlow ⊢
      norm_num at hlow hbelow ⊢
      constructor <;> linarith
    rw [hgrid] at hshift ⊢
    rw [hshift.roundedMantissa hcarry.1 hcarry.2 (fun hodd => absurd hodd (by decide)),
      shiftToTargetExponent_carry hq, dif_neg hM.ne']

/-- **Rounding.** A value that is given with enough places is rounded to the number in whose interval it lies. -/
theorem roundWithAccuracy_eq (hM : 0 < M) (hc : Canonical M q) (hx : RoundsTo x M q)
    (hrep : Represents (.ofMantissaAndAccuracy m acc) (x / 2 ^ e))
    (hle : e ≤ Format.binary64.targetExponent (totalExponent m e)) :
    roundWithAccuracy Format.binary64 s m e acc = .finite s M q hM :=
  roundWithAccuracy_eq_finite hM hc.lt hc.le hc.full hx hrep hle

/-- A product of a significand with enough places and a unit. -/
theorem roundWithAccuracy_exact (hM : 0 < M) (hc : Canonical M q) (hx : RoundsTo (m * 2 ^ e) M q)
    (hle : e ≤ Format.binary64.targetExponent (totalExponent m e)) :
    roundWithAccuracy Format.binary64 s m e .exact = .finite s M q hM := by
  refine roundWithAccuracy_eq hM hc hx ?_ hle
  rw [mul_div_cancel_right₀ _ (by positivity)]
  rfl

theorem log2_mul_two_pow (hm : 0 < m) (k : ℕ) : (m * 2 ^ k).log2 = m.log2 + k := by
  rw [Nat.log2_eq_iff (by positivity)]
  constructor
  · rw [pow_add]
    exact Nat.mul_le_mul_right _ (Nat.log2_self_le hm.ne')
  · rw [show m.log2 + k + 1 = m.log2 + 1 + k by omega, pow_add]
    exact Nat.mul_lt_mul_of_pos_right Nat.lt_log2_self (by positivity)

theorem totalExponent_decreaseExponent (hm : 0 < m) (e t : ℤ) :
    totalExponent (decreaseExponent m e t).1 (decreaseExponent m e t).2 = totalExponent m e := by
  simp only [totalExponent, decreaseExponent, Nat.shiftLeft_eq, log2_mul_two_pow hm]
  omega

theorem decreaseExponent_eq (m : ℕ) (e t : ℤ) :
    ((decreaseExponent m e t).1 : ℚ) * 2 ^ (decreaseExponent m e t).2 = m * 2 ^ e := by
  simp only [decreaseExponent, Nat.shiftLeft_eq]
  push_cast
  rw [mul_assoc, ← zpow_natCast, ← zpow_add₀ two_ne_zero]
  congr 2
  omega

theorem round_eq (hM : 0 < M) (hc : Canonical M q) (hm : 0 < m) (hx : RoundsTo (m * 2 ^ e) M q) :
    UnpackedFloat.round Format.binary64 s m e = .finite s M q hM := by
  rw [← decreaseExponent_eq m e (Format.binary64.targetExponent (totalExponent m e))] at hx
  have htotal := totalExponent_decreaseExponent hm e (Format.binary64.targetExponent (totalExponent m e))
  refine roundWithAccuracy_exact hM hc hx ?_
  simp only [decreaseExponent] at htotal
  rw [htotal]
  omega

/-! ## Products and quotients -/

variable {m₁ m₂ : ℕ} {e₁ e₂ : ℤ}

/-- A significand with all its places has enough of them to be rounded. -/
theorem le_targetExponent (hfull : 2 ^ 52 ≤ m) (e : ℤ) : e ≤ Format.binary64.targetExponent (totalExponent m e) := by
  have hlog := (Nat.le_log2 (Nat.lt_of_lt_of_le (by decide) hfull).ne').2 hfull
  rw [targetExponent_eq, totalExponent]
  omega

/-- Factors of which one has all places have a product with enough places. -/
theorem mul_finite_eq (h₁ : 0 < m₁) (h₂ : 0 < m₂) (hfull : 2 ^ 52 ≤ m₁ * m₂) (hM : 0 < M) (hc : Canonical M q)
    {s₁ s₂ : Sign} (hx : RoundsTo (m₁ * 2 ^ e₁ * (m₂ * 2 ^ e₂)) M q) :
    UnpackedFloat.mul Format.binary64 (.finite s₁ m₁ e₁ h₁) (.finite s₂ m₂ e₂ h₂) = .finite (s₁ * s₂) M q hM := by
  have hvalue : (m₁ * 2 ^ e₁ * (m₂ * 2 ^ e₂) : ℚ) = (m₁ * m₂ : ℕ) * 2 ^ (e₁ + e₂) := by
    rw [zpow_add₀ two_ne_zero]
    push_cast
    ring
  rw [hvalue] at hx
  exact roundWithAccuracy_exact hM hc hx (le_targetExponent hfull _)

theorem represents_accuracyOfFraction (k : ℕ) {num den : ℕ} (h : num < den) :
    Represents (.ofMantissaAndAccuracy k (accuracyOfFraction num den)) (k + num / den) := by
  have hden : (0 : ℚ) < den := by
    norm_cast
    omega
  have hfraction : (num / den : ℚ) < 1 := (div_lt_one₀ hden).2 (Nat.cast_lt.2 h)
  unfold accuracyOfFraction
  split
  next hzero => simp [Represents, ExtendedMantissa.ofMantissaAndAccuracy, hzero]
  next hzero =>
    have hpos : (0 : ℚ) < num / den := div_pos (Nat.cast_pos.2 (Nat.pos_of_ne_zero hzero)) hden
    rcases lt_trichotomy (2 * num) den with hcmp | hcmp | hcmp
    · have hhalf : (num / den : ℚ) < 1 / 2 := by
        rw [div_lt_div_iff₀ hden two_pos]
        norm_cast
        omega
      rw [Nat.compare_eq_lt.2 hcmp]
      exact ⟨by linarith, by linarith⟩
    · have hhalf : (num / den : ℚ) = 1 / 2 := by
        rw [div_eq_div_iff hden.ne' two_ne_zero]
        norm_cast
        omega
      rw [Nat.compare_eq_eq.2 hcmp]
      exact congrArg ((k : ℚ) + ·) hhalf
    · have hhalf : (1 / 2 : ℚ) < num / den := by
        rw [div_lt_div_iff₀ two_pos hden]
        norm_cast
        omega
      rw [Nat.compare_eq_gt.2 hcmp]
      exact ⟨by linarith, by linarith⟩

theorem log2_le_log2_div (m : ℕ) {k : ℕ} (hk : 0 < k) : m.log2 ≤ (m / k).log2 + k.log2 + 1 := by
  rcases Nat.lt_or_ge m.log2 (k.log2 + 1) with h | h
  · omega
  · have hm : m ≠ 0 := by
      rintro rfl
      simp at h
    have hquotient : 2 ^ (m.log2 - (k.log2 + 1)) ≤ m / k := by
      rw [Nat.le_div_iff_mul_le hk]
      calc 2 ^ (m.log2 - (k.log2 + 1)) * k
          ≤ 2 ^ (m.log2 - (k.log2 + 1)) * 2 ^ (k.log2 + 1) := Nat.mul_le_mul_left _ Nat.lt_log2_self.le
        _ = 2 ^ m.log2 := by rw [← pow_add, Nat.sub_add_cancel h]
        _ ≤ m := Nat.log2_self_le hm
    have hpos : m / k ≠ 0 := (lt_of_lt_of_le (by positivity) hquotient).ne'
    have hlog := (Nat.le_log2 hpos).2 hquotient
    omega

/-- A quotient is computed with enough places to be rounded. -/
theorem divCore_represents (h₁ : 0 < m₁) (h₂ : 0 < m₂) (e₁ e₂ : ℤ) {c : ℕ × ℤ × Accuracy}
    (hcore : divCore Format.binary64 m₁ e₁ m₂ e₂ = c) :
    Represents (.ofMantissaAndAccuracy c.1 c.2.2) (m₁ * 2 ^ e₁ / (m₂ * 2 ^ e₂) / 2 ^ c.2.1) ∧
      c.2.1 ≤ Format.binary64.targetExponent (totalExponent c.1 c.2.1) := by
  subst hcore
  simp only [divCore]
  generalize htarget : min (e₁ - e₂)
    (Format.binary64.targetExponent (totalExponent m₁ e₁ - totalExponent m₂ e₂)) = target
  generalize hshift : (e₁ - e₂ - target).toNat = shift
  have hshift' : (shift : ℤ) = e₁ - e₂ - target := by omega
  rw [Nat.shiftLeft_eq]
  constructor
  · have hvalue : (m₁ * 2 ^ e₁ / (m₂ * 2 ^ e₂) / 2 ^ target : ℚ) =
        (m₁ * 2 ^ shift / m₂ : ℕ) + (m₁ * 2 ^ shift % m₂ : ℕ) / m₂ := by
      have hm₂ : (m₂ : ℚ) ≠ 0 := Nat.cast_ne_zero.2 h₂.ne'
      have hdivision : (m₁ : ℚ) * 2 ^ shift = m₂ * (m₁ * 2 ^ shift / m₂ : ℕ) + (m₁ * 2 ^ shift % m₂ : ℕ) := by
        exact_mod_cast (Nat.div_add_mod _ _).symm
      have hpow : (2 : ℚ) ^ e₁ = 2 ^ shift * 2 ^ e₂ * 2 ^ target := by
        rw [← zpow_natCast, hshift', ← zpow_add₀ two_ne_zero, ← zpow_add₀ two_ne_zero]
        congr 1
        omega
      rw [hpow]
      field_simp
      linarith
    rw [hvalue]
    exact represents_accuracyOfFraction _ (Nat.mod_lt _ h₂)
  · have hlog := log2_le_log2_div (m₁ * 2 ^ shift) h₂
    rw [log2_mul_two_pow h₁] at hlog
    simp only [targetExponent_eq, totalExponent] at htarget ⊢
    omega

/-- The quotient of two finite numbers. -/
theorem div_finite_eq (h₁ : 0 < m₁) (h₂ : 0 < m₂) (hM : 0 < M) (hc : Canonical M q) {s₁ s₂ : Sign}
    (hx : RoundsTo (m₁ * 2 ^ e₁ / (m₂ * 2 ^ e₂)) M q) :
    UnpackedFloat.div Format.binary64 (.finite s₁ m₁ e₁ h₁) (.finite s₂ m₂ e₂ h₂) = .finite (s₁ / s₂) M q hM := by
  obtain ⟨hrep, hle⟩ := divCore_represents h₁ h₂ e₁ e₂ rfl
  exact roundWithAccuracy_eq hM hc hx hrep hle

end PocketCalc.Binary64
