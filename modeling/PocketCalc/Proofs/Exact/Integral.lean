import Mathlib
import PocketCalc.Proofs.Exact.Arithmetic
import PocketCalc.Proofs.Expr.Integral

/-!
# Integrals over the exact reals

* `sum_eq_error` — over any numbers, the sum over the grid fails with the first point that fails;
* `sum_halves` — a sum in which the ends count half is a sum over neighbours;
* `node`, `trapezoids` — the points of the grid as real numbers, and the sum of the trapezoids between them;
* `trapezoids_comm` — from the other end the points are the same, and the sum has the other sign;
* `trapezoids_affine` — of an affine function the sum is the integral;
* `integral_trapezoids` — the integral is the sum of the trapezoids, unless the formula fails at a point of the grid.
-/

namespace PocketCalc.Expr

open Exact

/-! ## Where the sum fails -/

section Failure

variable {α : Type} [Arithmetic α] {e : Expr α} {a b h s sum : α} {n m i steps : ℕ} {err : EvalError}

/-- A step fails exactly if the formula does. -/
theorem addSample_eq_error :
    addSample e a h n s i = .error err ↔ e.evaluate (some (gridPoint a h i)) = .error err := by
  rw [addSample, bind_eq_error]
  constructor
  · rintro (hy | ⟨y, -, hok⟩)
    · exact hy
    · cases hok
  · exact .inl

/-- The sum goes on as long as the formula has values. -/
theorem exists_sum_iff : (∃ sum, (List.range m).foldlM (addSample e a h n) s = .ok sum) ↔
    ∀ i < m, ∃ y, e.evaluate (some (gridPoint a h i)) = .ok y := by
  induction m with
  | zero => exact ⟨fun _ i hi => absurd hi (Nat.not_lt_zero i), fun _ => ⟨s, rfl⟩⟩
  | succ m ih =>
    rw [Nat.forall_lt_succ_right, ← ih]
    constructor
    · rintro ⟨sum, hsum⟩
      rw [foldlM_range_succ] at hsum
      obtain ⟨s', hs', hstep⟩ := bind_eq_ok.1 hsum
      obtain ⟨y, hy, -⟩ := addSample_eq_ok.1 hstep
      exact ⟨⟨s', hs'⟩, y, hy⟩
    · rintro ⟨⟨s', hs'⟩, y, hy⟩
      refine ⟨s' + weight n m * y, ?_⟩
      rw [foldlM_range_succ]
      exact bind_eq_ok.2 ⟨s', hs', addSample_eq_ok.2 ⟨y, hy, rfl⟩⟩

/-- **The sum fails with the first point at which the formula fails.** -/
theorem sum_eq_error : (List.range m).foldlM (addSample e a h n) s = .error err ↔
    ∃ i < m, (∀ j < i, ∃ y, e.evaluate (some (gridPoint a h j)) = .ok y) ∧
      e.evaluate (some (gridPoint a h i)) = .error err := by
  induction m with
  | zero => exact ⟨nofun, fun ⟨i, hi, _⟩ => absurd hi (Nat.not_lt_zero i)⟩
  | succ m ih =>
    rw [foldlM_range_succ, bind_eq_error, ih, Nat.exists_lt_succ_right, ← exists_sum_iff (n := n) (s := s)]
    simp only [addSample_eq_error, exists_and_right]

theorem integral_eq_error : e.integral a b steps = .error err ↔
    ∃ i ≤ clampSteps steps,
      (∀ j < i, ∃ y, e.evaluate (some (gridPoint a (gridWidth a b steps) j)) = .ok y) ∧
      e.evaluate (some (gridPoint a (gridWidth a b steps) i)) = .error err := by
  have hsum : e.integral a b steps = .error err ↔ e.sampleSum a b steps = .error err := by
    rw [integral, bind_eq_error]
    constructor
    · rintro (hsum | ⟨sum, -, hok⟩)
      · exact hsum
      · cases hok
    · exact .inl
  rw [hsum, sampleSum, sum_eq_error]
  simp only [Nat.lt_succ_iff]

end Failure

/-! ## Sums over neighbours -/

section Halves

variable {n i : ℕ}

/-- The weight of a point as a real number. -/
noncomputable def realWeight (n i : ℕ) : ℝ := if i = 0 ∨ i = n then 1 / 2 else 1

/-- A point counts half for the neighbour above, unless it is the last one, and half for the neighbour below, unless it is
the first one. -/
theorem realWeight_mul (hn : 0 < n) (f : ℕ → ℝ) (i : ℕ) :
    realWeight n i * f i = (if i = n then 0 else f i / 2) + if i = 0 then 0 else f i / 2 := by
  unfold realWeight
  by_cases hlast : i = n
  · rw [if_pos (.inr hlast), if_pos hlast, if_neg (by omega)]
    ring
  · by_cases hfirst : i = 0
    · rw [if_pos (.inl hfirst), if_neg hlast, if_pos hfirst]
      ring
    · rw [if_neg (by tauto), if_neg hlast, if_neg hfirst]
      ring

/-- **A sum in which the ends count half is a sum over neighbours.** -/
theorem sum_halves (hn : 0 < n) (f : ℕ → ℝ) :
    ∑ i ∈ Finset.range (n + 1), realWeight n i * f i = ∑ i ∈ Finset.range n, (f i + f (i + 1)) / 2 := by
  have habove : ∑ i ∈ Finset.range (n + 1), (if i = n then 0 else f i / 2) = ∑ i ∈ Finset.range n, f i / 2 := by
    rw [Finset.sum_range_succ, if_pos rfl, add_zero]
    refine Finset.sum_congr rfl fun i hi => if_neg ?_
    exact (Finset.mem_range.1 hi).ne
  have hbelow : ∑ i ∈ Finset.range (n + 1), (if i = 0 then 0 else f i / 2) =
      ∑ i ∈ Finset.range n, f (i + 1) / 2 := by
    rw [Finset.sum_range_succ', if_pos rfl, add_zero]
    exact Finset.sum_congr rfl fun i _ => if_neg (Nat.succ_ne_zero i)
  calc ∑ i ∈ Finset.range (n + 1), realWeight n i * f i
      = ∑ i ∈ Finset.range (n + 1), ((if i = n then 0 else f i / 2) + if i = 0 then 0 else f i / 2) :=
        Finset.sum_congr rfl fun i _ => realWeight_mul hn f i
    _ = ∑ i ∈ Finset.range n, f i / 2 + ∑ i ∈ Finset.range n, f (i + 1) / 2 := by
        rw [Finset.sum_add_distrib, habove, hbelow]
    _ = ∑ i ∈ Finset.range n, (f i + f (i + 1)) / 2 := by
        rw [← Finset.sum_add_distrib]
        exact Finset.sum_congr rfl fun i _ => (add_div ..).symm

end Halves

/-! ## Trapezoids -/

/-- The width of the grid as a real number. -/
noncomputable def realWidth (a b : ℝ) (steps : ℕ) : ℝ := (b - a) / clampSteps steps

/-- The point `i` of the grid on the way from `a` to `b`. -/
noncomputable def node (a b : ℝ) (steps i : ℕ) : ℝ := a + i * realWidth a b steps

/-- The sum of the trapezoids between neighbours on the grid. -/
noncomputable def trapezoids (f : ℝ → ℝ) (a b : ℝ) (steps : ℕ) : ℝ :=
  ∑ i ∈ Finset.range (clampSteps steps),
    realWidth a b steps * (f (node a b steps i) + f (node a b steps (i + 1))) / 2

section Trapezoids

variable {f : ℝ → ℝ} {a b c d : ℝ} {steps i : ℕ}

theorem cast_clampSteps_pos (steps : ℕ) : (0 : ℝ) < clampSteps steps := by exact_mod_cast clampSteps_pos steps

theorem clampSteps_mul_realWidth (a b : ℝ) (steps : ℕ) : clampSteps steps * realWidth a b steps = b - a :=
  mul_div_cancel₀ _ (cast_clampSteps_pos steps).ne'

theorem realWidth_comm (a b : ℝ) (steps : ℕ) : realWidth b a steps = -realWidth a b steps := by
  rw [realWidth, realWidth, ← neg_div, neg_sub]

/-- From the other end the points of the grid are the same. -/
theorem node_comm (a b : ℝ) (hi : i ≤ clampSteps steps) : node b a steps i = node a b steps (clampSteps steps - i) := by
  have hlength := clampSteps_mul_realWidth a b steps
  rw [node, node, realWidth_comm, Nat.cast_sub hi]
  linarith

/-- **Exchanging the bounds changes the sign.** -/
theorem trapezoids_comm (f : ℝ → ℝ) (a b : ℝ) (steps : ℕ) : trapezoids f b a steps = -trapezoids f a b steps := by
  unfold trapezoids
  rw [← Finset.sum_neg_distrib, ← Finset.sum_range_reflect]
  refine Finset.sum_congr rfl fun i hi => ?_
  have hi := Finset.mem_range.1 hi
  rw [node_comm a b (by omega), node_comm a b (by omega), realWidth_comm,
    show clampSteps steps - (clampSteps steps - 1 - i) = i + 1 by omega,
    show clampSteps steps - (clampSteps steps - 1 - i + 1) = i by omega]
  ring

/-- The points of the grid lie between the bounds. -/
theorem node_mem_uIcc (a b : ℝ) (hi : i ≤ clampSteps steps) : node a b steps i ∈ Set.uIcc a b := by
  have hn := cast_clampSteps_pos steps
  have hi' : (i : ℝ) ≤ clampSteps steps := by exact_mod_cast hi
  have hpart : node a b steps i = a + i / clampSteps steps * (b - a) := by
    rw [node, realWidth]
    ring
  have hlow : 0 ≤ (i : ℝ) / clampSteps steps := by positivity
  have hhigh : (i : ℝ) / clampSteps steps ≤ 1 := (div_le_one₀ hn).2 hi'
  rw [hpart, Set.mem_uIcc]
  rcases le_total a b with hab | hba
  · exact .inl ⟨by nlinarith, by nlinarith⟩
  · exact .inr ⟨by nlinarith, by nlinarith⟩

/-- The trapezoids below an affine function, up to the point `m`. -/
theorem sum_affine (a h c d : ℝ) (m : ℕ) :
    ∑ i ∈ Finset.range m, h * ((c * (a + i * h) + d) + (c * (a + (i + 1 : ℕ) * h) + d)) / 2 =
      c * ((a + m * h) ^ 2 - a ^ 2) / 2 + d * (m * h) := by
  induction m with
  | zero => simp
  | succ m ih =>
    rw [Finset.sum_range_succ, ih]
    push_cast
    ring

/-- **Of an affine function the sum of the trapezoids is the integral.** -/
theorem trapezoids_affine (hf : ∀ t ∈ Set.uIcc a b, f t = c * t + d) (steps : ℕ) :
    trapezoids f a b steps = ∫ t in a..b, f t := by
  have hintegral : ∫ t in a..b, f t = c * (b ^ 2 - a ^ 2) / 2 + d * (b - a) := by
    have hline : IntervalIntegrable (fun t => c * t) MeasureTheory.volume a b :=
      (continuous_const.mul continuous_id).intervalIntegrable _ _
    rw [intervalIntegral.integral_congr hf, intervalIntegral.integral_add hline intervalIntegrable_const,
      intervalIntegral.integral_const_mul, integral_id, intervalIntegral.integral_const, smul_eq_mul]
    ring
  have hlength := clampSteps_mul_realWidth a b steps
  have hsum := sum_affine a (realWidth a b steps) c d (clampSteps steps)
  rw [hlength, add_sub_cancel] at hsum
  rw [hintegral, ← hsum]
  refine Finset.sum_congr rfl fun i hi => ?_
  have hi := Finset.mem_range.1 hi
  rw [hf _ (node_mem_uIcc a b hi.le), hf _ (node_mem_uIcc a b (Nat.succ_le_of_lt hi)), node, node]

end Trapezoids

/-! ## The integral -/

section Integral

variable {e : Expr Exact} {a b s v : ℝ} {steps n m i : ℕ} {err : EvalError}

theorem gridPoint_real (a b : ℝ) (steps i : ℕ) :
    gridPoint (real a) (gridWidth (real a) (real b) steps) i = real (node a b steps i) := rfl

theorem weight_real (n i : ℕ) : (weight n i : Exact) = real (realWeight n i) := by
  unfold weight realWeight
  split
  · show real ((1 : ℕ) / (2 : ℕ)) = _
    rw [Nat.cast_one, Nat.cast_ofNat]
  · show real (1 : ℕ) = _
    rw [Nat.cast_one]

/-- The sum over the points that come before `m`, all of which have values. -/
theorem sum_real (h : ∀ i < m, e.Defined (node a b steps i)) :
    (List.range m).foldlM (addSample e (real a) (gridWidth (real a) (real b) steps) n) (Arithmetic.ofNat 0) =
      .ok (real (∑ i ∈ Finset.range m, realWeight n i * e.value (node a b steps i))) := by
  induction m with
  | zero =>
    show Except.ok (real (0 : ℕ)) = _
    rw [Finset.range_zero, Finset.sum_empty, Nat.cast_zero]
  | succ m ih =>
    have hvalue := (h m (Nat.lt_succ_self m)).evaluate
    rw [← gridPoint_real] at hvalue
    rw [foldlM_range_succ, bind_eq_ok]
    refine ⟨_, ih fun i hi => h i (Nat.lt_succ_of_lt hi), addSample_eq_ok.2 ⟨_, hvalue, ?_⟩⟩
    rw [Finset.sum_range_succ, weight_real]
    rfl

theorem integral_of_defined (h : ∀ i ≤ clampSteps steps, e.Defined (node a b steps i)) :
    e.integral (real a) (real b) steps = .ok (real (trapezoids e.value a b steps)) := by
  refine integral_eq_ok.2 ⟨_, sum_real fun i hi => h i (Nat.lt_succ_iff.1 hi), ?_⟩
  rw [sum_halves (clampSteps_pos steps) fun i => e.value (node a b steps i)]
  show real (_ * realWidth a b steps) = _
  rw [trapezoids, Finset.sum_mul]
  refine congrArg real (Finset.sum_congr rfl fun i _ => ?_)
  ring

/-- There is an integral exactly if the formula has a value at every point of the grid. -/
theorem integral_eq_ok_iff : e.integral (real a) (real b) steps = .ok (real v) ↔
    (∀ i ≤ clampSteps steps, e.Defined (node a b steps i)) ∧ v = trapezoids e.value a b steps := by
  constructor
  · intro h
    obtain ⟨sum, hsum, -⟩ := integral_eq_ok.1 h
    have hdefined : ∀ i ≤ clampSteps steps, e.Defined (node a b steps i) := fun i hi =>
      exists_sum_iff.1 ⟨sum, hsum⟩ i (Nat.lt_succ_of_le hi)
    rw [integral_of_defined hdefined, ok_real_inj] at h
    exact ⟨hdefined, h⟩
  · rintro ⟨hdefined, rfl⟩
    exact integral_of_defined hdefined

/-- **The integral is the composite trapezoidal rule.** With `n` steps, one at least and 100000 at most, on the points
`a + i * (b - a) / n`: it fails exactly if the formula fails at one of them, and then with the error of the first one;
otherwise it is the sum of the trapezoids between neighbours. So it is exact where the formula is affine between the
bounds, and changes its sign when they are exchanged. -/
theorem integral_trapezoids (e : Expr Exact) (a b : ℝ) (steps : ℕ) :
    (∀ err, e.integral (real a) (real b) steps = .error err ↔
      ∃ i ≤ clampSteps steps, (∀ j < i, e.Defined (node a b steps j)) ∧
        e.evaluate (some (real (node a b steps i))) = .error err) ∧
    ((∀ i ≤ clampSteps steps, e.Defined (node a b steps i)) →
      e.integral (real a) (real b) steps = .ok (real (trapezoids e.value a b steps))) ∧
    (∀ c d : ℝ, (∀ t ∈ Set.uIcc a b, e.evaluate (some (real t)) = .ok (real (c * t + d))) →
      e.integral (real a) (real b) steps = .ok (real (∫ t in a..b, e.value t))) ∧
    ∀ v, e.integral (real a) (real b) steps = .ok (real v) ↔ e.integral (real b) (real a) steps = .ok (real (-v)) := by
  refine ⟨fun err => integral_eq_error, integral_of_defined, fun c d haffine => ?_, fun v => ?_⟩
  · have hdefined : ∀ i ≤ clampSteps steps, e.Defined (node a b steps i) := fun i hi =>
      ⟨_, haffine _ (node_mem_uIcc a b hi)⟩
    rw [integral_of_defined hdefined, trapezoids_affine fun t ht => value_of_evaluate (haffine t ht)]
  · have hreversed : (∀ i ≤ clampSteps steps, e.Defined (node a b steps i)) ↔
        ∀ i ≤ clampSteps steps, e.Defined (node b a steps i) := by
      constructor
      · intro h i hi
        rw [node_comm a b hi]
        exact h _ (Nat.sub_le ..)
      · intro h i hi
        rw [node_comm b a hi]
        exact h _ (Nat.sub_le ..)
    rw [integral_eq_ok_iff, integral_eq_ok_iff, hreversed, trapezoids_comm, neg_eq_iff_eq_neg]

/-- With three steps the integral of `x` from zero to two is two, and minus two from two to zero; `1 / x` fails where a
point of the grid is zero. -/
theorem integral_trapezoids_line :
    (x : Expr Exact).integral (real 0) (real 2) 3 = .ok (real 2) ∧
      (x : Expr Exact).integral (real 2) (real 0) 3 = .ok (real (-2)) ∧
      (binary .div (number (real 1)) x : Expr Exact).integral (real (-1)) (real 1) 2 = .error .divisionByZero := by
  obtain ⟨-, -, haffine, hreversed⟩ := integral_trapezoids x 0 2 3
  obtain ⟨hfails, -⟩ := integral_trapezoids (binary .div (number (real 1)) x) (-1) 1 2
  have hx (t : ℝ) : (x : Expr Exact).evaluate (some (real t)) = .ok (real t) := rfl
  have hvalue : ∫ t in (0 : ℝ)..2, (x : Expr Exact).value t = 2 := by
    rw [intervalIntegral.integral_congr fun t _ => value_of_evaluate (hx t), integral_id]
    norm_num
  have hline := haffine 1 0 fun t _ => by rw [hx, one_mul, add_zero]
  rw [hvalue] at hline
  have hquotient (t : ℝ) : (binary .div (number (real 1)) x : Expr Exact).evaluate (some (real t)) =
      Operator.div.apply (real 1) (real t) := rfl
  refine ⟨hline, (hreversed 2).1 hline, (hfails _).2 ⟨1, by decide, fun j hj => ?_, ?_⟩⟩
  · obtain rfl : j = 0 := Nat.lt_one_iff.1 hj
    have hnode : node (-1) 1 2 0 = -1 := by simp [node]
    rw [hnode]
    exact ⟨real (1 / -1), (hquotient (-1)).trans (apply_div.2 ⟨by norm_num, rfl⟩)⟩
  · have hnode : node (-1) 1 2 1 = 0 := by simp [node, realWidth, clampSteps, maxSteps]
    rw [hnode, hquotient, Operator.apply, if_pos ((eq_ofNat 0).2 Nat.cast_zero.symm)]

end Integral

end PocketCalc.Expr
