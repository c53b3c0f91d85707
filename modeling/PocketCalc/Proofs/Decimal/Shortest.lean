import PocketCalc.Decimal.Shortest
import PocketCalc.Proofs.Binary64.Rounding

/-!
# The shortest decimal reads back

* `Decimal.value` — the rational number that a decimal is;
* `readsBack_iff` — the test is exact: it finds out whether the value lies in the interval of a number;
* `shortest_roundsTo` — the value of the shortest decimal does.
-/

namespace PocketCalc.Decimal

open Binary64

/-- The rational number that a decimal is. -/
def value (d : Decimal) : ℚ := d.digits * 10 ^ d.exponent

variable {v : Binary64} {d : Decimal} {s : Float.Model.UnpackedFloat.Sign} {m : ℕ} {q : ℤ} {hm : 0 < m}

/-- A power with a whole exponent as a quotient. -/
theorem zpow_mul_toNat {b : ℚ} (hb : b ≠ 0) (i : ℤ) : b ^ i * b ^ (-i).toNat = b ^ i.toNat := by
  rw [← zpow_natCast, ← zpow_natCast, ← zpow_add₀ hb]
  congr 1
  omega

/-- Both sides are multiplied by the same power of ten and of two to be compared. -/
theorem compareWith_eq (d : Decimal) (b : ℕ) (j : ℤ) :
    compareWith d.digits d.exponent b j = compare d.value (b * 2 ^ j) := by
  obtain ⟨a, i⟩ := d
  have hscale : (0 : ℚ) < 10 ^ (-i).toNat * 2 ^ (-j).toNat := by positivity
  have hleft : ((a * Nat.pow 10 i.toNat * Nat.pow 2 (-j).toNat : ℕ) : ℚ) =
      value ⟨a, i⟩ * (10 ^ (-i).toNat * 2 ^ (-j).toNat) := by
    simp only [value, Nat.pow_eq, Nat.cast_mul, Nat.cast_pow, Nat.cast_ofNat]
    rw [← zpow_mul_toNat (by norm_num : (10 : ℚ) ≠ 0) i]
    ring
  have hright : ((b * Nat.pow 2 j.toNat * Nat.pow 10 (-i).toNat : ℕ) : ℚ) =
      b * 2 ^ j * (10 ^ (-i).toNat * 2 ^ (-j).toNat) := by
    simp only [Nat.pow_eq, Nat.cast_mul, Nat.cast_pow, Nat.cast_ofNat]
    rw [← zpow_mul_toNat (by norm_num : (2 : ℚ) ≠ 0) j]
    ring
  simp only [compareWith]
  generalize a * Nat.pow 10 i.toNat * Nat.pow 2 (-j).toNat = x at *
  generalize b * Nat.pow 2 j.toNat * Nat.pow 10 (-i).toNat = y at *
  rcases lt_trichotomy x y with h | h | h
  · have hlt : (x : ℚ) < y := Nat.cast_lt.2 h
    rw [hleft, hright] at hlt
    rw [compare_lt_iff_lt.2 h, compare_lt_iff_lt.2 (lt_of_mul_lt_mul_right hlt hscale.le)]
  · have heq : (x : ℚ) = y := congrArg _ h
    rw [hleft, hright] at heq
    rw [compare_eq_iff_eq.2 h, compare_eq_iff_eq.2 (mul_right_cancel₀ hscale.ne' heq)]
  · have hlt : (y : ℚ) < x := Nat.cast_lt.2 h
    rw [hleft, hright] at hlt
    rw [compare_gt_iff_gt.2 h, compare_gt_iff_gt.2 (lt_of_mul_lt_mul_right hlt hscale.le)]

/-- **The test is exact.** -/
theorem readsBack_iff (hv : v.unpacked = .finite s m q hm) : readsBack v d = true ↔ RoundsTo d.value m q := by
  obtain ⟨-, hsig, hexp, -, hnarrow⟩ := fields_of_finite hv
  have hlow : (((4 * m - if v.isNarrowBelow then 1 else 2 : ℕ) : ℕ) : ℚ) =
      4 * m - if m = 2 ^ 52 ∧ -1074 < q then 1 else 2 := by
    by_cases h : m = 2 ^ 52 ∧ -1074 < q
    · rw [if_pos (hnarrow.2 h), if_pos h, Nat.cast_sub (by omega)]
      push_cast
      rfl
    · rw [if_neg (mt hnarrow.1 h), if_neg h, Nat.cast_sub (by omega)]
      push_cast
      rfl
  have hhigh : ((4 * m + 2 : ℕ) : ℚ) = 4 * m + 2 := by
    push_cast
    rfl
  simp only [readsBack, hsig, hexp, compareWith_eq, hlow, hhigh]
  split
  next heven =>
    rw [Bool.and_eq_true]
    constructor
    · rintro ⟨h1, h2⟩
      exact ⟨compare_ge_iff_ge.1 (Ordering.isGE_iff_ne_lt.1 h1), compare_le_iff_le.1 (Ordering.isLE_iff_ne_gt.1 h2),
        fun hodd => by omega⟩
    · intro h
      exact ⟨Ordering.isGE_iff_ne_lt.2 (compare_ge_iff_ge.2 h.low),
        Ordering.isLE_iff_ne_gt.2 (compare_le_iff_le.2 h.high)⟩
  next hodd =>
    have hfull : ¬ (m = 2 ^ 52 ∧ -1074 < q) := by
      rintro ⟨rfl, -⟩
      exact hodd (by decide)
    rw [if_neg hfull, Bool.and_eq_true, Ordering.isGT_iff_eq_gt, Ordering.isLT_iff_eq_lt, compare_gt_iff_gt,
      compare_lt_iff_lt]
    constructor
    · rintro ⟨h1, h2⟩
      refine ⟨?_, h2.le, fun _ => ⟨h1, h2⟩⟩
      rw [if_neg hfull]
      exact h1.le
    · intro h
      exact h.tie (by omega)

/-! ## The shortest decimal -/

theorem readsBack_of_onGrid? {e : ℤ} (h : onGrid? v e = some d) : readsBack v d = true := by
  simp only [onGrid?] at h
  split at h
  next hbelow habove =>
    split at h
    · cases h
      exact hbelow
    · cases h
      exact habove
  next hbelow _ =>
    cases h
    exact hbelow
  next _ habove =>
    cases h
    exact habove
  next => cases h

theorem value_exact (hv : v.unpacked = .finite s m q hm) : (exact v).value = m * 2 ^ q := by
  obtain ⟨-, hsig, hexp, -⟩ := fields_of_finite hv
  simp only [exact, value, hsig, hexp, Nat.pow_eq, Nat.cast_mul, Nat.cast_pow, Nat.cast_ofNat]
  rcases le_total 0 q with hq | hq
  · rw [min_eq_right hq, show (-q).toNat = 0 by omega, ← zpow_natCast, Int.toNat_of_nonneg hq]
    norm_num
  · have hten : (10 : ℚ) ^ q = 2 ^ q * 5 ^ q := by rw [← mul_zpow]; norm_num
    have hfive : (5 : ℚ) ^ (-q).toNat * 5 ^ q = 1 := by
      rw [← zpow_natCast, ← zpow_add₀ (by norm_num), show ((-q).toNat : ℤ) + q = 0 by omega, zpow_zero]
    rw [min_eq_left hq, show q.toNat = 0 by omega, hten, pow_zero]
    linear_combination (m * 2 ^ q : ℚ) * hfive

theorem value_carried (d : Decimal) : (carried d).value = d.value := by
  unfold carried
  split
  next h =>
    simp only [value, h]
    rw [zpow_add_one₀ (by norm_num)]
    push_cast
    ring
  · rfl

/-- **The shortest decimal reads back.** -/
theorem shortest_roundsTo (hv : v.unpacked = .finite s m q hm) : RoundsTo (shortest v).value m q := by
  simp only [shortest]
  rw [value_carried]
  generalize hfound : (List.range 17).findSome? _ = found
  cases found with
  | some d =>
    obtain ⟨n, -, hgrid⟩ := List.exists_of_findSome?_eq_some hfound
    exact (readsBack_iff hv).1 (readsBack_of_onGrid? hgrid)
  | none =>
    rw [Option.getD_none, value_exact hv]
    exact RoundsTo.self m q

end PocketCalc.Decimal
