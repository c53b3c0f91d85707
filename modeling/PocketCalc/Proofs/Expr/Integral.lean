import PocketCalc.Expr.Integral
import PocketCalc.Proofs.Binary64.Overflow
import PocketCalc.Proofs.Expr.Finite

/-!
# Integrals that are finite

The values at the points of the grid are checked like all values, but the width of the grid, the sum and its product with
the width are not.

* `addSample`, `sampleSum` — one step of the sum over the grid, and the sum;
* `addCheckedSample`, `checkedIntegral` — the same with all operations checked;
* `checkedSum_of_isFinite` — a sum over the grid that is finite has been finite all along;
* `checkedIntegral_eq_ok` — an integral is finite exactly if all its operations can be checked;
* `SumWithin` — the sum is bounded by the halves of samples that it counts; each point keeps that;
* `Bounded`, `Bounded.distance_integral` — integrals with small samples and a short interval are finite and small.
-/

namespace PocketCalc.Expr

open Binary64

section

variable {α : Type} [Arithmetic α]

/-- The sum over the grid goes on by the value at a point. -/
def addSample (e : Expr α) (a h : α) (n : ℕ) (sum : α) (i : ℕ) : Except EvalError α := do
  let y ← e.evaluate (some (gridPoint a h i))
  return sum + weight n i * y

/-- The width of the grid. -/
def gridWidth (a b : α) (steps : ℕ) : α := (b - a) / Arithmetic.ofNat (clampSteps steps)

/-- The sum over the grid. -/
def sampleSum (e : Expr α) (a b : α) (steps : ℕ) : Except EvalError α :=
  (List.range (clampSteps steps + 1)).foldlM (addSample e a (gridWidth a b steps) (clampSteps steps))
    (Arithmetic.ofNat 0)

theorem addSample_eq_ok {e : Expr α} {a h s sum : α} {n i : ℕ} : addSample e a h n s i = .ok sum ↔
    ∃ y, e.evaluate (some (gridPoint a h i)) = .ok y ∧ s + weight n i * y = sum := by
  rw [addSample, bind_eq_ok]
  refine exists_congr fun y => and_congr_right fun _ => ?_
  exact ⟨fun h => Except.ok.inj h, fun h => congrArg Except.ok h⟩

theorem integral_eq_ok {e : Expr α} {a b r : α} {steps : ℕ} :
    e.integral a b steps = .ok r ↔ ∃ sum, e.sampleSum a b steps = .ok sum ∧ sum * gridWidth a b steps = r := by
  rw [integral, bind_eq_ok]
  refine exists_congr fun sum => and_congr_right fun _ => ?_
  exact ⟨fun h => Except.ok.inj h, fun h => congrArg Except.ok h⟩

/-- The sum over the grid goes on by the value at a point, with checks. -/
def addCheckedSample (e : Expr α) (a h : α) (n : ℕ) (sum : α) (i : ℕ) : Except EvalError α := do
  let y ← e.evaluate (some (gridPoint a h i))
  Operator.add.apply sum (← Operator.mul.apply (weight n i) y)

/-- The integral by trapezoids, of which every operation is refused where it is in a formula. -/
def checkedIntegral (e : Expr α) (a b : α) (steps : ℕ) : Except EvalError α := do
  let n := clampSteps steps
  let h ← Operator.div.apply (← Operator.sub.apply b a) (Arithmetic.ofNat n)
  let sum ← (List.range (n + 1)).foldlM (addCheckedSample e a h n) (Arithmetic.ofNat 0)
  Operator.mul.apply sum h

end

variable {L : Libm} {e : Expr L.Number} {a b h r s sum v w : L.Number} {n i steps : ℕ} {l : List ℕ}

theorem apply_div_ofNat_eq_ok (hn : 0 < n) : Operator.div.apply v (Arithmetic.ofNat n) = .ok r ↔
    v / Arithmetic.ofNat n = r ∧ Arithmetic.isFinite r = true := by
  have hzero : Arithmetic.eq (Arithmetic.ofNat n : L.Number) (Arithmetic.ofNat 0) = false := ofNat_ne_zero hn
  rw [Operator.apply, hzero, if_neg Bool.false_ne_true, checked_eq_ok_iff]

/-! ## The sum over the grid -/

theorem addCheckedSample_eq_ok : addCheckedSample e a h n s i = .ok sum ↔
    ∃ y, e.evaluate (some (gridPoint a h i)) = .ok y ∧ Arithmetic.isFinite (weight n i * y) = true ∧
      s + weight n i * y = sum ∧ Arithmetic.isFinite sum = true := by
  rw [addCheckedSample, bind_eq_ok]
  refine exists_congr fun y => and_congr_right fun _ => ?_
  rw [bind_eq_ok]
  constructor
  · rintro ⟨z, hz, hsum⟩
    obtain ⟨rfl, hfinite⟩ := checked_eq_ok_iff.1 hz
    exact ⟨hfinite, checked_eq_ok_iff.1 hsum⟩
  · rintro ⟨hfinite, hsum⟩
    exact ⟨_, checked_eq_ok_iff.2 ⟨rfl, hfinite⟩, checked_eq_ok_iff.2 hsum⟩

/-- A step to a finite sum starts from a finite sum, and can be checked. -/
theorem addCheckedSample_of_isFinite (hstep : addSample e a h n s i = .ok sum) (hsum : Arithmetic.isFinite sum = true) :
    Arithmetic.isFinite s = true ∧ addCheckedSample e a h n s i = .ok sum := by
  obtain ⟨y, hy, rfl⟩ := addSample_eq_ok.1 hstep
  obtain ⟨hs, hterm⟩ := isFinite_of_add (Number.isFinite_iff.1 hsum)
  exact ⟨Number.isFinite_iff.2 hs, addCheckedSample_eq_ok.2 ⟨y, hy, Number.isFinite_iff.2 hterm, rfl, hsum⟩⟩

/-- A sum over the grid that is finite has been finite all along, and can be checked. -/
theorem checkedSum_of_isFinite (hfold : l.foldlM (addSample e a h n) s = .ok sum)
    (hsum : Arithmetic.isFinite sum = true) :
    Arithmetic.isFinite s = true ∧ l.foldlM (addCheckedSample e a h n) s = .ok sum := by
  induction l generalizing s with
  | nil =>
    cases hfold
    exact ⟨hsum, rfl⟩
  | cons i l ih =>
    obtain ⟨s₁, hstep, hrest⟩ := foldlM_cons_eq_ok.1 hfold
    obtain ⟨hs₁, hchecked⟩ := ih hrest
    obtain ⟨hs, hstep⟩ := addCheckedSample_of_isFinite hstep hs₁
    exact ⟨hs, foldlM_cons_eq_ok.2 ⟨s₁, hstep, hchecked⟩⟩

theorem sum_of_checkedSum (hfold : l.foldlM (addCheckedSample e a h n) s = .ok sum) :
    l.foldlM (addSample e a h n) s = .ok sum := by
  induction l generalizing s with
  | nil => exact hfold
  | cons i l ih =>
    obtain ⟨s₁, hstep, hrest⟩ := foldlM_cons_eq_ok.1 hfold
    obtain ⟨y, hy, -, hs₁, -⟩ := addCheckedSample_eq_ok.1 hstep
    exact foldlM_cons_eq_ok.2 ⟨s₁, addSample_eq_ok.2 ⟨y, hy, hs₁⟩, ih hrest⟩

/-! ## The integral -/

theorem clampSteps_pos (steps : ℕ) : 0 < clampSteps steps := Nat.lt_of_lt_of_le one_pos (le_max_left _ _)

/-- **An integral is finite exactly if all its operations can be checked.** -/
theorem checkedIntegral_eq_ok : e.checkedIntegral a b steps = .ok r ↔
    e.integral a b steps = .ok r ∧ Arithmetic.isFinite r = true := by
  rw [integral_eq_ok, checkedIntegral, bind_eq_ok]
  constructor
  · rintro ⟨d, hd, hrest⟩
    obtain ⟨h, hh, hrest⟩ := bind_eq_ok.1 hrest
    obtain ⟨sum, hsum, hr⟩ := bind_eq_ok.1 hrest
    obtain ⟨rfl, -⟩ := checked_eq_ok_iff.1 hd
    obtain ⟨rfl, -⟩ := (apply_div_ofNat_eq_ok (clampSteps_pos steps)).1 hh
    obtain ⟨rfl, hr⟩ := checked_eq_ok_iff.1 hr
    exact ⟨⟨sum, sum_of_checkedSum hsum, rfl⟩, hr⟩
  · rintro ⟨⟨sum, hsum, rfl⟩, hr⟩
    obtain ⟨hfinite, hwidth⟩ := isFinite_of_mul (Number.isFinite_iff.1 hr)
    obtain ⟨-, hchecked⟩ := checkedSum_of_isFinite hsum (Number.isFinite_iff.2 hfinite)
    have hlength : Arithmetic.isFinite (b - a) = true := Number.isFinite_iff.2 (isFinite_of_div hwidth)
    refine ⟨b - a, checked_eq_ok_iff.2 ⟨rfl, hlength⟩, bind_eq_ok.2 ⟨gridWidth a b steps, ?_, ?_⟩⟩
    · exact (apply_div_ofNat_eq_ok (clampSteps_pos steps)).2 ⟨rfl, Number.isFinite_iff.2 hwidth⟩
    · exact bind_eq_ok.2 ⟨sum, hchecked, checked_eq_ok_iff.2 ⟨rfl, hr⟩⟩

/-! ## How large an integral can be -/

/-- Bounds of an integral: the samples are at most `2 ^ k` from zero, the length of the interval is at most as many times
`2 ^ l` as there are steps, and the products with these bounds are below the threshold. -/
structure Bounded (e : Expr L.Number) (a b : L.Number) (steps : ℕ) (k l : ℤ) : Prop where
  length : Binary64.isFinite (b - a) = true ∧ Binary64.distance (b - a) ≤ clampSteps steps * 2 ^ l
  samples : ∀ i ≤ clampSteps steps, ∀ y, e.evaluate (some (gridPoint a (gridWidth a b steps) i)) = .ok y →
    Binary64.isFinite y = true ∧ Binary64.distance y ≤ 2 ^ k
  places : -1073 ≤ k ∧ -1074 ≤ l ∧ -1074 ≤ k + l
  width : (2 : ℚ) ^ l < threshold
  sum : clampSteps steps * 2 ^ k < threshold
  product : clampSteps steps * 2 ^ (k + l) < threshold

/-- How many halves of a sample the point `i` counts. -/
def halves (n i : ℕ) : ℕ := if i = 0 ∨ i = n then 1 else 2

variable {k l : ℤ} {y : L.Number} {m : ℕ}

theorem distance_half : (Binary64.ofNat 1 / Binary64.ofNat 2).isFinite = true ∧
    (Binary64.ofNat 1 / Binary64.ofNat 2).distance = 1 / 2 := by
  have hfields : (Binary64.ofNat 1 / Binary64.ofNat 2).isFinite = true ∧
      (Binary64.ofNat 1 / Binary64.ofNat 2).significand = 2 ^ 52 ∧
      (Binary64.ofNat 1 / Binary64.ofNat 2).exponent = -53 := by decide +kernel
  obtain ⟨hfinite, hsignificand, hexponent⟩ := hfields
  refine ⟨hfinite, ?_⟩
  rw [Binary64.distance, hsignificand, hexponent]
  norm_num

theorem distance_weight (n i : ℕ) : Binary64.isFinite (weight n i : L.Number) = true ∧
    Binary64.distance (weight n i : L.Number) = halves n i / 2 := by
  unfold weight halves
  split
  · refine ⟨distance_half.1, distance_half.2.trans ?_⟩
    norm_num
  · refine ⟨isFinite_of_unpacked unpacked_ofNat_one, distance_one.trans ?_⟩
    norm_num

theorem clampSteps_le (steps : ℕ) : clampSteps steps ≤ 100000 := max_le (by decide) (min_le_right _ _)

theorem distance_term (hy : Binary64.isFinite y = true) (hle : Binary64.distance y ≤ 2 ^ k) (hk : -1073 ≤ k)
    (hbound : (2 : ℚ) ^ k < threshold) : Binary64.isFinite (weight n i * y : L.Number) = true ∧
      Binary64.distance (weight n i * y : L.Number) ≤ halves n i * 2 ^ (k - 1) := by
  obtain ⟨hfinite, hweight⟩ := distance_weight (L := L) n i
  have hhalves : halves n i ≤ 2 := by unfold halves; split <;> decide
  have hvalue : Binary64.distance (weight n i : L.Number) * Binary64.distance y ≤ halves n i * 2 ^ (k - 1) := by
    rw [hweight, zpow_half]
    calc (halves n i / 2 * Binary64.distance y : ℚ) ≤ halves n i / 2 * 2 ^ k := by gcongr
      _ = halves n i * (2 ^ k / 2) := by ring
  refine distance_mul_le hfinite hy (hhalves.trans (by norm_num)) (by omega) ?_ hvalue
  refine lt_of_le_of_lt ?_ hbound
  rw [zpow_half]
  have hhalves : (halves n i : ℚ) ≤ 2 := by exact_mod_cast hhalves
  have hpos : (0 : ℚ) < 2 ^ k := by positivity
  nlinarith

/-- How many halves of samples the first `m` points count. -/
def halvesBelow (n m : ℕ) : ℕ := min (2 * m - 1) (2 * n)

theorem halvesBelow_succ (hn : 0 < n) (hm : m ≤ n) : halvesBelow n m + halves n m ≤ halvesBelow n (m + 1) := by
  unfold halvesBelow halves
  split <;> omega

/-- The sum is as far from zero as the halves allow that the first `m` points count. -/
def SumWithin (n m : ℕ) (k : ℤ) (sum : L.Number) : Prop :=
  Binary64.isFinite sum = true ∧ Binary64.distance sum ≤ halvesBelow n m * 2 ^ (k - 1)

/-- The next point keeps the sum within the halves that are counted. -/
theorem Bounded.sumWithin_step (h : e.Bounded a b steps k l) (hm : m ≤ clampSteps steps)
    (hs : SumWithin (clampSteps steps) m k s)
    (hstep : addSample e a (gridWidth a b steps) (clampSteps steps) s m = .ok sum) :
    SumWithin (clampSteps steps) (m + 1) k sum := by
  have hn := clampSteps_pos steps
  have hsteps := clampSteps_le steps
  obtain ⟨hfinite, hsum⟩ := hs
  obtain ⟨y, hy, rfl⟩ := addSample_eq_ok.1 hstep
  obtain ⟨hyfinite, hsample⟩ := h.samples m hm y hy
  have hpower : (2 : ℚ) ^ k < threshold := by
    refine lt_of_le_of_lt ?_ h.sum
    exact le_mul_of_one_le_left (by positivity) (by exact_mod_cast hn)
  obtain ⟨htfinite, hterm⟩ := distance_term (n := clampSteps steps) (i := m) hyfinite hsample h.places.1 hpower
  have hcount : (halvesBelow (clampSteps steps) m + halves (clampSteps steps) m : ℚ) ≤
      halvesBelow (clampSteps steps) (m + 1) := by
    exact_mod_cast halvesBelow_succ hn hm
  have hall : halvesBelow (clampSteps steps) (m + 1) ≤ 2 * clampSteps steps := min_le_right _ _
  have hplace := h.places.1
  have hpos : (0 : ℚ) < 2 ^ (k - 1) := by positivity
  refine distance_add_le hfinite htfinite (by omega) (by omega) ?_ ?_
  · refine lt_of_le_of_lt ?_ h.sum
    have hall : (halvesBelow (clampSteps steps) (m + 1) : ℚ) ≤ 2 * clampSteps steps := by exact_mod_cast hall
    rw [zpow_half]
    have hpos : (0 : ℚ) < 2 ^ k := by positivity
    nlinarith
  · calc Binary64.distance s + Binary64.distance (weight (clampSteps steps) m * y : L.Number)
        ≤ halvesBelow (clampSteps steps) m * 2 ^ (k - 1) + halves (clampSteps steps) m * 2 ^ (k - 1) :=
          add_le_add hsum hterm
      _ = (halvesBelow (clampSteps steps) m + halves (clampSteps steps) m) * 2 ^ (k - 1) := (add_mul ..).symm
      _ ≤ halvesBelow (clampSteps steps) (m + 1) * 2 ^ (k - 1) := by gcongr

/-- After `m` points the sum is within the halves that they count. -/
theorem Bounded.sumWithin (h : e.Bounded a b steps k l) (hm : m ≤ clampSteps steps + 1)
    (hfold : (List.range m).foldlM (addSample e a (gridWidth a b steps) (clampSteps steps)) (Arithmetic.ofNat 0) =
      .ok sum) : SumWithin (clampSteps steps) m k sum := by
  induction m generalizing sum with
  | zero =>
    cases hfold
    refine ⟨isFinite_iff.2 (kinds_of_zero unpacked_ofNat_zero), ?_⟩
    calc (Binary64.ofNat 0).distance = 0 := distance_of_zero unpacked_ofNat_zero
      _ ≤ halvesBelow (clampSteps steps) 0 * 2 ^ (k - 1) := by positivity
  | succ m ih =>
    rw [List.range_succ] at hfold
    obtain ⟨s, hs, hlast⟩ := foldlM_append_eq_ok.1 hfold
    obtain ⟨sum', hstep, hnil⟩ := foldlM_cons_eq_ok.1 hlast
    cases hnil
    exact h.sumWithin_step (by omega) (ih (by omega) hs) hstep

/-- **How large an integral can be.** Within its bounds an integral is finite, and at most as large as the bound of the
samples times the bound of the length. -/
theorem Bounded.distance_integral (h : e.Bounded a b steps k l) (hr : e.integral a b steps = .ok r) :
    Binary64.isFinite r = true ∧ Binary64.distance r ≤ clampSteps steps * 2 ^ (k + l) := by
  have hn := clampSteps_pos steps
  have hsteps := clampSteps_le steps
  obtain ⟨sum, hsum, rfl⟩ := integral_eq_ok.1 hr
  obtain ⟨hfinite, hbound⟩ := h.sumWithin le_rfl hsum
  have hall : halvesBelow (clampSteps steps) (clampSteps steps + 1) = 2 * clampSteps steps := by
    unfold halvesBelow
    omega
  obtain ⟨hnfinite, hndistance⟩ := distance_ofNat hn (by omega)
  have hquotient : Binary64.distance (b - a) / (Binary64.ofNat (clampSteps steps)).distance ≤ (1 : ℕ) * 2 ^ l := by
    rw [hndistance, Nat.cast_one, one_mul, div_le_iff₀' (by exact_mod_cast hn)]
    exact h.length.2
  obtain ⟨hwfinite, hwidth⟩ : Binary64.isFinite (gridWidth a b steps) = true ∧
      Binary64.distance (gridWidth a b steps) ≤ (1 : ℕ) * 2 ^ l := by
    refine distance_div_le h.length.1 hnfinite (by norm_num) h.places.2.1 ?_ (ofNat_ne_zero hn) hquotient
    rw [Nat.cast_one, one_mul]
    exact h.width
  refine distance_mul_le hfinite hwfinite (by omega) h.places.2.2 h.product ?_
  rw [hall] at hbound
  have hvalue : ((2 * clampSteps steps : ℕ) : ℚ) * 2 ^ (k - 1) = clampSteps steps * 2 ^ k := by
    rw [zpow_half]
    push_cast
    ring
  rw [hvalue] at hbound
  rw [Nat.cast_one, one_mul] at hwidth
  rw [zpow_add₀ two_ne_zero, ← mul_assoc]
  exact mul_le_mul hbound hwidth (distance_nonneg _) (by positivity)

end PocketCalc.Expr
