import PocketCalc.Proofs.Binary64.Nearest
import PocketCalc.Proofs.Decimal.Reading

/-!
# Where numbers overflow

* `isFinite_of_add`, `isFinite_of_sub`, `isFinite_of_mul`, `isFinite_of_div` — no operation makes a finite number out of
  one that is not, but for a division by an infinity;
* `isFinite_add`, `isFinite_sub` — sums and differences of finite numbers are finite below the threshold;
* `distance_le_of_exponent_le`, `isFinite_sub_one` — how far from zero a finite number can be, and that one less than it is
  finite;
* `ofNat_ne_zero`, `distance_ofNat`, `toRat_ofNat`, `nearest_ofNat` — the numbers for natural numbers.
-/

namespace PocketCalc.Binary64

open Float.Model Float.Model.UnpackedFloat

variable {a b : Binary64} {u v : UnpackedFloat} {n : ℕ} {p : ℤ}

/-! ## What makes no finite number -/

theorem isFinite_of_ofUnpacked (h : (ofUnpacked u).isFinite = true) : u.isFinite = true := by
  cases u with
  | notANumber => cases h
  | infinity s => cases s <;> cases h
  | zero s => rfl
  | finite s m e hm => rfl

theorem isFinite_of_add_unpacked (h : (UnpackedFloat.add Format.binary64 u v).isFinite = true) :
    u.isFinite = true ∧ v.isFinite = true := by
  cases u <;> cases v <;> first | exact ⟨rfl, rfl⟩ | cases h | skip
  next s t => cases s <;> cases t <;> cases h

/-- A sum that is finite is one of finite numbers. -/
theorem isFinite_of_add (h : (a + b).isFinite = true) : a.isFinite = true ∧ b.isFinite = true :=
  isFinite_of_add_unpacked (isFinite_of_ofUnpacked h)

theorem isFinite_of_sub (h : (a - b).isFinite = true) : a.isFinite = true ∧ b.isFinite = true := by
  rw [sub_eq_add] at h
  obtain ⟨ha, hb⟩ := isFinite_of_add h
  exact ⟨ha, (isFinite_neg b).symm.trans hb⟩

theorem isFinite_of_mul (h : (a * b).isFinite = true) : a.isFinite = true ∧ b.isFinite = true := by
  have hmul : (UnpackedFloat.mul Format.binary64 a.unpacked b.unpacked).isFinite = true := isFinite_of_ofUnpacked h
  rw [isFinite_eq, isFinite_eq]
  generalize a.unpacked = u at *
  generalize b.unpacked = v at *
  cases u <;> cases v <;> first | exact ⟨rfl, rfl⟩ | cases hmul

/-- A quotient that is finite is one of a finite number; the divisor may be infinite. -/
theorem isFinite_of_div (h : (a / b).isFinite = true) : a.isFinite = true := by
  have hdiv : (UnpackedFloat.div Format.binary64 a.unpacked b.unpacked).isFinite = true := isFinite_of_ofUnpacked h
  rw [isFinite_eq]
  generalize a.unpacked = u at *
  generalize b.unpacked = v at *
  cases u <;> cases v <;> first | rfl | cases hdiv

/-! ## One less -/

theorem isFinite_add (ha : a.isFinite = true) (hb : b.isFinite = true) (h : a.distance + b.distance < threshold) :
    (a + b).isFinite = true := by
  refine (nearest_add ha hb).isFinite ((abs_add_le ..).trans_lt ?_)
  rwa [abs_toRat, abs_toRat]

theorem isFinite_sub (ha : a.isFinite = true) (hb : b.isFinite = true) (h : a.distance + b.distance < threshold) :
    (a - b).isFinite = true := by
  rw [sub_eq_add]
  exact isFinite_add ha ((isFinite_neg b).trans hb) (by rwa [distance_neg hb])

/-- A finite number has at most 53 places. -/
theorem distance_le_of_exponent_le (h : a.isFinite = true) (hp : a.exponent ≤ p) : a.distance ≤ (2 ^ 53 - 1) * 2 ^ p := by
  rcases finite_cases h with ⟨s, hs⟩ | ⟨s, m, e, hm, hs⟩
  · rw [distance_of_zero hs]
    positivity
  · have hm' : (m : ℚ) ≤ 2 ^ 53 - 1 := by
      rw [le_sub_iff_add_le]
      exact_mod_cast (canonical_of_finite hs).lt
    rw [(fields_of_finite hs).2.2.1] at hp
    rw [distance_of_finite hs]
    gcongr
    norm_num

theorem exponent_le (h : a.isFinite = true) : a.exponent ≤ 971 := by
  rcases finite_cases h with ⟨s, hs⟩ | ⟨s, m, e, hm, hs⟩
  · rw [(fields_of_zero hs).2.2]
    norm_num
  · rw [(fields_of_finite hs).2.2.1]
    obtain ⟨-, -, hle, -⟩ := canonical_of_finite hs
    exact hle

theorem distance_one : (ofNat 1).distance = 1 := by
  rw [distance_of_finite unpacked_ofNat_one]
  norm_num

/-- One less than a finite number is finite, as far out as numbers go. -/
theorem isFinite_sub_one (h : a.isFinite = true) : (a - ofNat 1).isFinite = true := by
  refine isFinite_sub h (isFinite_of_unpacked unpacked_ofNat_one) ?_
  have hle := distance_le_of_exponent_le h (exponent_le h)
  have hunit : (2 : ℚ) ^ (1 : ℤ) < 2 ^ (971 : ℤ) := zpow_lt_zpow_right₀ one_lt_two (by norm_num)
  rw [distance_one, threshold]
  generalize (2 : ℚ) ^ (971 : ℤ) = unit at *
  rw [zpow_one] at hunit
  linarith

/-! ## Natural numbers -/

theorem ofNat_ne_zero (hn : 0 < n) : (ofNat n).eq (ofNat 0) = false := by
  refine Bool.eq_false_iff.2 fun hzero => ?_
  obtain ⟨s, hs⟩ := eq_ofNat_zero.1 hzero
  rcases isLarge_ofNat hn with ⟨t, m, q, hm, hu, -⟩ | hinf
  · rw [hs] at hu
    cases hu
  · rw [isInfinite_eq, hs] at hinf
    cases hinf

/-- Whole numbers with at most 53 places are exact. -/
theorem unpacked_ofNat (hn : 0 < n) (hlt : n < 2 ^ 53) :
    ∃ m e, ∃ hm : 0 < m, (ofNat n).unpacked = .finite .positive m e hm ∧ (m * 2 ^ e : ℚ) = n := by
  have hvalue : ofNat n = ofFloat n.toUInt64.toFloat * ofFloat Float.exactlyRepresentablePowersOfTen[0] := by
    show ofFloat (Float.ofScientific n false 0) = _
    rw [Float.ofScientific, dif_pos ⟨hlt, by decide⟩]
    rfl
  have hagree : (ofNat n).Agrees (ofFloat n.toUInt64.toFloat) := by
    rw [hvalue]
    exact mul_one_agrees _ (eq_ofNat_one.2 rfl)
  obtain ⟨m, e, hm, hu, hexact⟩ := Decimal.unpacked_natCast hn hlt
  rw [Agrees, hu] at hagree
  generalize hv : (ofNat n).unpacked = v at hagree
  cases hagree
  exact ⟨m, e, hm, rfl, hexact⟩

theorem distance_ofNat (hn : 0 < n) (hlt : n < 2 ^ 53) : (ofNat n).isFinite = true ∧ (ofNat n).distance = n := by
  obtain ⟨m, e, hm, hu, hexact⟩ := unpacked_ofNat hn hlt
  exact ⟨isFinite_of_unpacked hu, (distance_of_finite hu).trans hexact⟩

theorem toRat_ofNat (hlt : n < 2 ^ 53) : (ofNat n).isFinite = true ∧ (ofNat n).toRat = n := by
  rcases Nat.eq_zero_or_pos n with rfl | hn
  · exact ⟨rfl, (toRat_of_zero unpacked_ofNat_zero).trans Nat.cast_zero.symm⟩
  · obtain ⟨m, e, hm, hu, hexact⟩ := unpacked_ofNat hn hlt
    exact ⟨isFinite_of_unpacked hu, (toRat_of_finite hu).trans hexact⟩

/-- The number for any natural number is what that is rounded to. -/
theorem nearest_ofNat (n : ℕ) : Nearest n (ofNat n) := by
  have h := Decimal.nearest_toBinary64 ⟨n, 0⟩
  rwa [Decimal.value, zpow_zero, mul_one] at h

end PocketCalc.Binary64
