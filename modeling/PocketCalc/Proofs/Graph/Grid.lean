import PocketCalc.Proofs.Binary64.Overflow
import PocketCalc.Graph.Curve

/-!
# The grid of a range

* `Range.Sound` — what a range is with which nothing is wrong;
* `Range.abscissa` — the points of the range, numbered;
* `isFinite_step`, `abscissa_le` — where the span is finite, so is the step, and the points are in order;
* `isFinite_abscissa` — where the last point is finite, so are all;
* `isFinite_last` — and so it is with ends that are not too far from zero.
-/

namespace PocketCalc

open Binary64 Float.Model.UnpackedFloat

namespace Range

variable {r : Range} {i j : ℕ}

/-! ## Ranges -/

/-- What a range is with which nothing is wrong. -/
structure Sound (r : Range) : Prop where
  low : r.low.isFinite = true
  high : r.high.isFinite = true
  lt : r.low.toRat < r.high.toRat
  two_le : 2 ≤ r.points
  le : r.points ≤ 10000

theorem sound_of_fault? (h : r.fault? = none) : r.Sound := by
  unfold fault? at h
  split at h
  · cases h
  next hfinite =>
    simp only [Bool.or_eq_true, Bool.not_eq_true', not_or, Bool.not_eq_false] at hfinite
    obtain ⟨hlow, hhigh⟩ := hfinite
    split at h
    · cases h
    next horder =>
      rw [le_iff hhigh hlow, not_le] at horder
      split at h
      · cases h
      next hfew =>
        split at h
        · cases h
        next hmany => exact ⟨hlow, hhigh, horder, Nat.not_lt.1 hfew, Nat.not_lt.1 hmany⟩

theorem Sound.count_eq (h : r.Sound) : r.count = r.points := Nat.min_eq_left h.le

theorem Sound.step_eq (h : r.Sound) : r.step = (r.high - r.low) / .ofNat (r.points - 1) := by
  have htwo := h.two_le
  rw [step, h.count_eq, if_pos (by omega)]

/-- The point of the range with a number. -/
def abscissa (r : Range) (i : ℕ) : Binary64 := r.low + .ofNat i * r.step

theorem Sound.grid_eq (h : r.Sound) : r.grid = (List.range r.points).map r.abscissa := by
  rw [← h.count_eq]
  rfl

/-! ## Steps -/

theorem Sound.nearest_step (h : r.Sound) (hspan : (r.high - r.low).isFinite = true) :
    Nearest ((r.high - r.low).toRat / (r.points - 1 : ℕ)) r.step := by
  have htwo := h.two_le
  have hle := h.le
  obtain ⟨hfinite, hvalue⟩ := toRat_ofNat (n := r.points - 1) (by omega)
  rw [h.step_eq, ← hvalue]
  exact nearest_div hspan hfinite (ofNat_ne_zero (by omega))

theorem Sound.abs_step_le (h : r.Sound) (x : ℚ) : |x / (r.points - 1 : ℕ)| ≤ |x| := by
  have htwo := h.two_le
  have hone : (1 : ℚ) ≤ (r.points - 1 : ℕ) := by exact_mod_cast (show 1 ≤ r.points - 1 by omega)
  rw [abs_div, abs_of_nonneg (zero_le_one.trans hone)]
  exact div_le_self (abs_nonneg x) hone

/-- The step is finite, and not negative. -/
theorem Sound.isFinite_step (h : r.Sound) (hspan : (r.high - r.low).isFinite = true) :
    r.step.isFinite = true ∧ 0 ≤ r.step.toRat := by
  have hstep := h.nearest_step hspan
  have hfinite := hstep.isFinite ((h.abs_step_le _).trans_lt ((nearest_self hspan).abs_lt_threshold hspan))
  have hspan' := (nearest_sub h.high h.low).toRat_nonneg hspan (sub_nonneg.2 h.lt.le)
  exact ⟨hfinite, hstep.toRat_nonneg hfinite (by positivity)⟩

/-- All steps together are at most twice as long as the span. -/
theorem Sound.abs_steps_le (h : r.Sound) (hspan : (r.high - r.low).isFinite = true) :
    |((r.points - 1 : ℕ) : ℚ) * r.step.toRat| ≤ 2 * (r.high - r.low).distance := by
  have htwo := h.two_le
  have hcount : (0 : ℚ) < (r.points - 1 : ℕ) := by exact_mod_cast (show 0 < r.points - 1 by omega)
  have htwice := (h.nearest_step hspan).distance_le_two_mul (h.isFinite_step hspan).1
  rw [abs_div, abs_toRat, abs_of_pos hcount, ← mul_div_assoc, le_div_iff₀ hcount] at htwice
  rw [abs_mul, abs_toRat, abs_of_pos hcount]
  linarith

/-- So many steps. -/
theorem nearest_steps (hstep : r.step.isFinite = true) (hi : i < 2 ^ 53) :
    Nearest (i * r.step.toRat) (.ofNat i * r.step) := by
  obtain ⟨hfinite, hvalue⟩ := toRat_ofNat hi
  rw [← hvalue]
  exact nearest_mul hfinite hstep

/-! ## Points -/

/-- **The points of the range are in order**, where its span is finite. -/
theorem Sound.abscissa_le (h : r.Sound) (hspan : (r.high - r.low).isFinite = true) (hij : i ≤ j) (hj : j < r.points) :
    (r.abscissa i).le (r.abscissa j) = true := by
  have hle := h.le
  obtain ⟨hstep, hnonneg⟩ := h.isFinite_step hspan
  refine le_add_left h.low (Nearest.le ?_ (nearest_steps hstep (by omega)) (nearest_steps hstep (by omega)))
  exact mul_le_mul_of_nonneg_right (Nat.cast_le.2 hij) hnonneg

/-- The first point is the lower end. -/
theorem Sound.isFinite_first (h : r.Sound) (hspan : (r.high - r.low).isFinite = true) :
    (r.abscissa 0).isFinite = true := by
  have hsteps := nearest_steps (i := 0) (h.isFinite_step hspan).1 (by norm_num)
  rw [Nat.cast_zero, zero_mul] at hsteps
  have hfinite := hsteps.isFinite (by rw [abs_zero]; exact threshold_pos)
  refine (nearest_add h.low hfinite).isFinite ?_
  have hzero : (Binary64.ofNat 0 * r.step).toRat = 0 :=
    le_antisymm (hsteps.toRat_nonpos hfinite le_rfl) (hsteps.toRat_nonneg hfinite le_rfl)
  rw [hzero, add_zero]
  exact (nearest_self h.low).abs_lt_threshold h.low

/-- **Where the last point of the range is finite, so are its span and all its points.** -/
theorem Sound.isFinite_abscissa (h : r.Sound) (hlast : (r.abscissa (r.points - 1)).isFinite = true) (hi : i < r.points) :
    (r.abscissa i).isFinite = true := by
  have htwo := h.two_le
  have hstep := (isFinite_of_mul (isFinite_of_add hlast).2).2
  rw [h.step_eq] at hstep
  have hspan := isFinite_of_div hstep
  exact isFinite_of_le_of_le (h.abscissa_le hspan (Nat.zero_le i) hi) (h.abscissa_le hspan (by omega) (by omega))
    (h.isFinite_first hspan) hlast

/-- A quarter of the greatest power of two and the next one but one are below the threshold together. -/
theorem two_pow_add_lt_threshold : (2 : ℚ) ^ (1021 : ℤ) + 2 ^ (1023 : ℤ) < threshold := by
  have hpos : (0 : ℚ) < 2 ^ (971 : ℤ) := by positivity
  rw [threshold, show (1021 : ℤ) = 50 + 971 by norm_num, show (1023 : ℤ) = 52 + 971 by norm_num,
    zpow_add₀ two_ne_zero, zpow_add₀ two_ne_zero, ← add_mul]
  exact mul_lt_mul_of_pos_right (by norm_num) hpos

/-- **Ends that are not too far from zero have a last point that is finite.** -/
theorem Sound.isFinite_last (h : r.Sound) (hlow : r.low.distance ≤ 2 ^ (1021 : ℤ))
    (hhigh : r.high.distance ≤ 2 ^ (1021 : ℤ)) : (r.abscissa (r.points - 1)).isFinite = true := by
  have hle := h.le
  have hdouble (k : ℤ) : (2 : ℚ) ^ (k + 1) = 2 * 2 ^ k := by
    rw [zpow_add_one₀ two_ne_zero]
    ring
  -- the span, and all steps together
  have hends : |r.high.toRat - r.low.toRat| ≤ 2 ^ (1021 + 1 : ℤ) := by
    refine (abs_sub _ _).trans ?_
    rw [abs_toRat, abs_toRat, hdouble]
    linarith
  obtain ⟨hspan, hspan'⟩ := (nearest_sub h.high h.low).distance_le_two_pow (by norm_num) (by norm_num) hends
  have hsteps : |((r.points - 1 : ℕ) : ℚ) * r.step.toRat| ≤ 2 ^ (1021 + 1 + 1 : ℤ) := by
    rw [hdouble]
    exact (h.abs_steps_le hspan).trans (mul_le_mul_of_nonneg_left hspan' two_pos.le)
  have hsmall : r.points - 1 < 2 ^ 53 := by omega
  obtain ⟨hproduct, hproduct'⟩ :=
    (nearest_steps (h.isFinite_step hspan).1 hsmall).distance_le_two_pow (by norm_num) (by norm_num) hsteps
  exact isFinite_add h.low hproduct ((add_le_add hlow hproduct').trans_lt two_pow_add_lt_threshold)

end Range

end PocketCalc
