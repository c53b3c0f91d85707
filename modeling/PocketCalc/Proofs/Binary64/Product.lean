import PocketCalc.Proofs.Binary64.Overflow

/-!
# How far products of natural numbers go

Each product is rounded, so the numbers from two up to 171 have a product in numbers that is not their factorial. It is
near enough, though, to tell where the products leave the range of numbers.

* `productFrom_add`, `productFrom_succ` — a product in two parts, and up to its last factor;
* `IsLarge.roundoff_bounds` — a rounded value of at least one is wrong by a fixed part of itself at most;
* `NearFactorial` — a factorial up to the errors of so many roundings; `NearFactorial.mul` is one more factor;
* `exists_productFrom` — a product that starts with one is a finite number up to the factor 170;
* `productFrom_eq_overflow` — and beyond all numbers from the factor 171 on;
* `nearFactorial_of_factorial` — so what comes out of a factorial is near to the factorial.
-/

namespace PocketCalc.Binary64

variable {a u v : Binary64} {x : ℚ} {c : ℕ}

/-! ## Products in parts -/

theorem productFrom_add (acc : Binary64) (k c d : ℕ) :
    productFrom acc k (c + d) = productFrom acc k c >>= fun u => productFrom u (k + c) d := by
  induction c generalizing acc k with
  | zero =>
    rw [Nat.zero_add]
    rfl
  | succ c ih =>
    rw [Nat.succ_add, productFrom, productFrom]
    by_cases hinf : (acc * ofNat k).isInfinite = true
    · simp only [if_pos hinf]
      rfl
    · simp only [if_neg hinf]
      rw [ih, show k + 1 + c = k + (c + 1) by omega]

theorem productFrom_succ (acc : Binary64) (k c : ℕ) :
    productFrom acc k (c + 1) = productFrom acc k c >>= fun u =>
      if (u * ofNat (k + c)).isInfinite then .error .overflow else .ok (u * ofNat (k + c)) :=
  productFrom_add acc k c 1

theorem product_eq_foldl (acc : Binary64) (k c : ℕ) :
    product acc k c = ((List.range' k c).map ofNat).foldl (· * ·) acc := by
  induction c generalizing acc k with
  | zero => rfl
  | succ c ih => exact ih (acc * ofNat k) (k + 1)

/-! ## Rounding errors -/

/-- How far a number can be from what is rounded to it, as a part of the number. -/
def roundoff : ℚ := 1 / 2 ^ 53

/-- A number that is at least one differs from what is rounded to it by that part at most. -/
theorem IsLarge.roundoff_bounds (ha : a.IsLarge) (h : Nearest x a) (hx : 0 ≤ x) :
    a.toRat * (1 - roundoff) ≤ x ∧ x ≤ a.toRat * (1 + roundoff) := by
  have hdist := (h.roundsTo ha.isFinite).dist_le.1
  have hvalue : a.toRat = a.distance := by rw [← abs_toRat, abs_of_nonneg (h.toRat_nonneg ha.isFinite hx)]
  obtain ⟨s, m, e, hm, hu, hfull, -⟩ := ha
  have hplace : (1 / 2 : ℚ) * 2 ^ e ≤ m * 2 ^ e * roundoff := by
    calc (1 / 2 : ℚ) * 2 ^ e = 2 ^ 52 * (2 ^ e * roundoff) := by rw [roundoff]; ring
      _ ≤ m * (2 ^ e * roundoff) := by
          refine mul_le_mul_of_nonneg_right (by exact_mod_cast hfull) ?_
          rw [roundoff]
          positivity
      _ = m * 2 ^ e * roundoff := (mul_assoc _ _ _).symm
  rw [(fields_of_finite hu).2.1, (fields_of_finite hu).2.2.1, abs_of_nonneg hx] at hdist
  rw [hvalue, distance_of_finite hu]
  obtain ⟨hlow, hhigh⟩ := abs_le.1 (hdist.trans hplace)
  constructor <;> linarith

/-! ## Factorials up to rounding errors -/

/-- The number is at least one, and the factorial of `c + 1` up to the errors of `c` roundings. -/
structure NearFactorial (c : ℕ) (u : Binary64) : Prop where
  isLarge : u.IsLarge
  nonneg : 0 ≤ u.toRat
  low : u.toRat * (1 - roundoff) ^ c ≤ (c + 1).factorial
  high : (c + 1).factorial ≤ u.toRat * (1 + roundoff) ^ c

theorem nearFactorial_one : NearFactorial 0 1 := by
  have hvalue : (1 : Binary64).toRat = 1 := (toRat_ofNat (n := 1) (by norm_num)).2.trans Nat.cast_one
  refine ⟨⟨_, _, _, _, unpacked_ofNat_one, le_rfl, le_rfl⟩, ?_, ?_, ?_⟩ <;> rw [hvalue] <;> norm_num

/-- The next factor, before the product is rounded. -/
theorem NearFactorial.bounds (h : NearFactorial c u) :
    u.toRat * (c + 2 : ℕ) * (1 - roundoff) ^ c ≤ (c + 2).factorial ∧
      (c + 2).factorial ≤ u.toRat * (c + 2 : ℕ) * (1 + roundoff) ^ c := by
  have hfactor : (0 : ℚ) ≤ (c + 2 : ℕ) := Nat.cast_nonneg _
  rw [show c + 2 = c + 1 + 1 from rfl, Nat.factorial_succ, Nat.cast_mul]
  constructor
  · calc u.toRat * (c + 1 + 1 : ℕ) * (1 - roundoff) ^ c = (c + 1 + 1 : ℕ) * (u.toRat * (1 - roundoff) ^ c) := by ring
      _ ≤ (c + 1 + 1 : ℕ) * (c + 1).factorial := mul_le_mul_of_nonneg_left h.low hfactor
  · calc ((c + 1 + 1 : ℕ) : ℚ) * (c + 1).factorial ≤ (c + 1 + 1 : ℕ) * (u.toRat * (1 + roundoff) ^ c) :=
          mul_le_mul_of_nonneg_left h.high hfactor
      _ = u.toRat * (c + 1 + 1 : ℕ) * (1 + roundoff) ^ c := by ring

theorem NearFactorial.nearest_mul (h : NearFactorial c u) (hc : c ≤ 169) :
    Nearest (u.toRat * (c + 2 : ℕ)) (u * ofNat (c + 2)) := by
  obtain ⟨hfinite, hvalue⟩ := toRat_ofNat (n := c + 2) (by omega)
  rw [← hvalue]
  exact Binary64.nearest_mul h.isLarge.isFinite hfinite

/-- The errors of so many roundings are small. -/
theorem roundoff_pow_bounds (hc : c ≤ 169) : 1 / 2 ≤ (1 - roundoff) ^ c ∧ (1 + roundoff) ^ c ≤ 2 := by
  have hsmall : (1 : ℚ) / 2 ≤ (1 - roundoff) ^ 169 ∧ (1 + roundoff) ^ 169 ≤ 2 := by norm_num [roundoff]
  exact ⟨hsmall.1.trans (pow_le_pow_of_le_one (by norm_num [roundoff]) (by norm_num [roundoff]) hc),
    (pow_le_pow_right₀ (by norm_num [roundoff]) hc).trans hsmall.2⟩

/-- **The next product is a finite number, too**, as long as the factor is at most 170. -/
theorem NearFactorial.isFinite_mul (h : NearFactorial c u) (hc : c ≤ 168) : (u * ofNat (c + 2)).isFinite = true := by
  have hnonneg : 0 ≤ u.toRat * (c + 2 : ℕ) := mul_nonneg h.nonneg (Nat.cast_nonneg _)
  have hhalf := (roundoff_pow_bounds (show c ≤ 169 by omega)).1
  have hfactorial : ((c + 2).factorial : ℚ) ≤ 2 ^ 1020 := by
    have hmax : Nat.factorial 170 ≤ 2 ^ 1020 := by decide +kernel
    exact_mod_cast (Nat.factorial_le (show c + 2 ≤ 170 by omega)).trans hmax
  have hthreshold : (2 : ℚ) ^ (1021 : ℤ) < threshold := zpow_lt_threshold (by norm_num)
  refine (h.nearest_mul (by omega)).isFinite ?_
  rw [abs_of_nonneg hnonneg]
  refine lt_of_le_of_lt ?_ hthreshold
  calc u.toRat * (c + 2 : ℕ) = u.toRat * (c + 2 : ℕ) * (1 / 2) * 2 := by ring
    _ ≤ u.toRat * (c + 2 : ℕ) * (1 - roundoff) ^ c * 2 := by gcongr
    _ ≤ 2 ^ 1020 * 2 := by gcongr; exact h.bounds.1.trans hfactorial
    _ = 2 ^ (1021 : ℤ) := (pow_succ (2 : ℚ) 1020).symm

/-- It is the next factorial, with one more rounding. -/
theorem NearFactorial.mul (h : NearFactorial c u) (hc : c ≤ 168) : NearFactorial (c + 1) (u * ofNat (c + 2)) := by
  have hnearest := h.nearest_mul (by omega)
  have hnonneg : 0 ≤ u.toRat * (c + 2 : ℕ) := mul_nonneg h.nonneg (Nat.cast_nonneg _)
  have hfinite := h.isFinite_mul hc
  obtain ⟨hlow, hhigh⟩ := h.bounds
  have hlarge : (u * ofNat (c + 2)).IsLarge :=
    (h.isLarge.mul (isLarge_ofNat (Nat.succ_pos _))).resolve_right (by rw [(isFinite_iff.1 hfinite).2]; decide)
  obtain ⟨hbelow, habove⟩ := hlarge.roundoff_bounds hnearest hnonneg
  refine ⟨hlarge, hnearest.toRat_nonneg hfinite hnonneg, ?_, ?_⟩
  · have hpos : (0 : ℚ) ≤ (1 - roundoff) ^ c := pow_nonneg (by norm_num [roundoff]) c
    calc (u * ofNat (c + 2)).toRat * (1 - roundoff) ^ (c + 1) =
          (u * ofNat (c + 2)).toRat * (1 - roundoff) * (1 - roundoff) ^ c := by ring
      _ ≤ u.toRat * (c + 2 : ℕ) * (1 - roundoff) ^ c := mul_le_mul_of_nonneg_right hbelow hpos
      _ ≤ (c + 2).factorial := hlow
  · have hpos : (0 : ℚ) ≤ (1 + roundoff) ^ c := pow_nonneg (by norm_num [roundoff]) c
    calc ((c + 2).factorial : ℚ) ≤ u.toRat * (c + 2 : ℕ) * (1 + roundoff) ^ c := hhigh
      _ ≤ (u * ofNat (c + 2)).toRat * (1 + roundoff) * (1 + roundoff) ^ c := mul_le_mul_of_nonneg_right habove hpos
      _ = (u * ofNat (c + 2)).toRat * (1 + roundoff) ^ (c + 1) := by ring

/-- **With the factor 171 the product is beyond all numbers.** -/
theorem NearFactorial.isInfinite (h : NearFactorial 169 u) : (u * ofNat 171).isInfinite = true := by
  have hbelow : threshold ≤ u.toRat * (171 : ℕ) := by
    have hnonneg : 0 ≤ u.toRat * (171 : ℕ) := mul_nonneg h.nonneg (Nat.cast_nonneg _)
    have hmin : (2 : ℚ) ^ 1025 ≤ (Nat.factorial 171 : ℕ) := by
      have hmin : 2 ^ 1025 ≤ Nat.factorial 171 := by decide +kernel
      exact_mod_cast hmin
    have htwice : (2 : ℚ) ^ 1025 ≤ u.toRat * (171 : ℕ) * 2 := by
      refine hmin.trans (h.bounds.2.trans ?_)
      exact mul_le_mul_of_nonneg_left (roundoff_pow_bounds le_rfl).2 hnonneg
    have hthreshold : threshold ≤ 2 ^ 1024 := by exact_mod_cast threshold_le
    rw [pow_succ] at htwice
    exact hthreshold.trans (le_of_mul_le_mul_right htwice two_pos)
  rw [isInfinite_eq, (h.nearest_mul le_rfl).eq_above hbelow]
  rfl

/-- **A product that starts with one is a number up to the factor 170**, and the factorial up to rounding errors. -/
theorem exists_productFrom (h : c ≤ 169) : ∃ u, productFrom 1 2 c = .ok u ∧ NearFactorial c u := by
  induction c with
  | zero => exact ⟨1, rfl, nearFactorial_one⟩
  | succ c ih =>
    obtain ⟨u, hu, hnear⟩ := ih (by omega)
    have hnext := hnear.mul (by omega)
    refine ⟨_, ?_, hnext⟩
    rw [productFrom_succ, hu, Nat.add_comm 2 c]
    exact if_neg (by rw [(isFinite_iff.1 hnext.isLarge.isFinite).2]; decide)

/-- **From the factor 171 on a product is beyond all numbers**, however many factors there are. -/
theorem productFrom_eq_overflow (h : 170 ≤ c) : productFrom 1 2 c = .error .overflow := by
  obtain ⟨d, rfl⟩ := Nat.exists_eq_add_of_le h
  obtain ⟨u, hu, hnear⟩ := exists_productFrom le_rfl
  have hfirst : productFrom 1 2 170 = .error .overflow := by
    rw [productFrom_succ, hu]
    exact if_pos hnear.isInfinite
  rw [productFrom_add, hfirst]
  rfl

/-- What comes out of a factorial has one rounding for each factor after the first. -/
theorem nearFactorial_of_factorial (h : factorial v = .ok u) : NearFactorial (v.roundAbs - 1) u := by
  simp only [factorial] at h
  split at h
  · cases h
  · rcases Nat.lt_or_ge (v.roundAbs - 1) 170 with hlt | hge
    · obtain ⟨w, hw, hnear⟩ := exists_productFrom (c := v.roundAbs - 1) (by omega)
      rw [hw] at h
      cases h
      exact hnear
    · rw [productFrom_eq_overflow hge] at h
      cases h

end PocketCalc.Binary64
