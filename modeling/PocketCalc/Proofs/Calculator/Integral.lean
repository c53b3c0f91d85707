import PocketCalc.Proofs.Calculator.Compute
import PocketCalc.Proofs.Expr.Integral
import PocketCalc.Proofs.Numeral.Readable

/-!
# What the key of the integral shows

* `fitted_mem_words_iff` — a number is shown as a word exactly if it is not finite;
* `integral_shown` — the key shows such a word exactly if an operation of the sum, of the width of the grid or of their
  product would be refused in a formula;
* `integral_overflow` — it may show one.
-/

namespace PocketCalc.Compute

open Binary64 Numeral

variable {t shown : Text} {s : Settings} {v : Binary64}

/-- A number is shown as one of the words exactly if it is not finite. -/
theorem fitted_mem_words_iff (v : Binary64) (width : ℕ) : fitted v width ∈ specialWords ↔ v.isFinite = false := by
  constructor
  · intro hwords
    refine Bool.eq_false_iff.2 fun hfinite => ?_
    obtain ⟨err, herr⟩ := (read?_of_mem_words hwords).2
    obtain ⟨w, hw⟩ := (valueOf_fitted_iff v width).2 hfinite
    rw [herr] at hw
    cases hw
  · exact fun h => fitted_of_not_finite h width

theorem value_integral_eq_ok : Task.integral.value t s = .ok v ↔
    ∃ e, Formula.parse t = .ok e ∧ e.integral s.low s.high s.steps = .ok v := by
  simp only [Task.value, integral, read, bind_eq_ok, mapError_eq_ok]

/-- **When an integral is finite.** Whatever the formula, the bounds and the number of steps: an integral that there is, is
finite exactly if the length of the interval, the width of the grid, the terms of the sum, the sum after each of them and
the product of the sum and the width are all finite, so that the same operations in a formula would not be refused. They
are where the samples and the length of the interval are bounded well below the largest number, and the integral is then
at most the product of these bounds. The key shows the word for an infinity or for no number exactly if they are not. -/
theorem integral_shown (e : Formula) (a b r : Binary64) (steps : ℕ) (t shown : Text) (s : Settings) :
    (e.integral a b steps = .ok r → (r.isFinite = true ↔ e.checkedIntegral a b steps = .ok r) ∧
        ∀ k l : ℤ, Expr.Bounded (L := Libm.system) e a b steps k l →
          r.isFinite = true ∧ r.distance ≤ Expr.clampSteps steps * 2 ^ (k + l)) ∧
      (Formula.parse t = .ok e → Task.integral.resultText t s = .ok shown →
        (shown ∈ specialWords ↔ ¬ ∃ r, e.checkedIntegral s.low s.high s.steps = .ok r)) := by
  have hchecked {a b r : Binary64} {steps : ℕ} : e.checkedIntegral a b steps = .ok r ↔
      e.integral a b steps = .ok r ∧ r.isFinite = true :=
    (Expr.checkedIntegral_eq_ok (L := Libm.system)).trans (and_congr_right fun _ => Number.isFinite_iff)
  refine ⟨fun hr => ⟨(and_iff_right hr).symm.trans hchecked.symm, fun k l hbounded => hbounded.distance_integral hr⟩,
    fun hparse hshown => ?_⟩
  obtain ⟨v, hv, rfl⟩ := Task.resultText_eq_ok.1 hshown
  obtain ⟨e', hparse', hv⟩ := value_integral_eq_ok.1 hv
  obtain rfl : e = e' := Except.ok.inj (hparse.symm.trans hparse')
  rw [fitted_mem_words_iff]
  constructor
  · rintro hinfinite ⟨r, hr⟩
    obtain ⟨hr, hfinite⟩ := hchecked.1 hr
    obtain rfl : v = r := Except.ok.inj (hv.symm.trans hr)
    rw [hinfinite] at hfinite
    cases hfinite
  · exact fun hnone => Bool.eq_false_iff.2 fun hfinite => hnone ⟨v, hchecked.2 ⟨hv, hfinite⟩⟩

/-- On the grid of four steps from zero to two, the samples of `x` are at most four. -/
theorem bounded_line : Expr.Bounded (L := Libm.system) Expr.x (0 : Binary64) (2 : Binary64) 4 2 (-1) := by
  have hlength : ((2 : Binary64) - 0).isFinite = true ∧ ((2 : Binary64) - 0).significand = 2 ^ 52 ∧
      ((2 : Binary64) - 0).exponent = -51 := by decide +kernel
  have hsamples : ∀ i < 5, ∀ y ∈ ((Expr.x : Formula).evaluate
      (some (Expr.gridPoint 0 (Expr.gridWidth 0 2 4) i))).toOption, y.isFinite = true ∧ y.exponent ≤ -51 := by
    decide +kernel
  have hsteps : ((Expr.clampSteps 4 : ℕ) : ℚ) = 2 ^ (2 : ℤ) := by norm_num [Expr.clampSteps, Expr.maxSteps]
  refine ⟨⟨hlength.1, ?_⟩, fun i hi y hy => ?_, by norm_num, zpow_lt_threshold (by norm_num), ?_, ?_⟩
  · show ((2 : Binary64) - 0).distance ≤ _
    rw [distance, hlength.2.1, hlength.2.2, hsteps]
    norm_num
  · obtain ⟨hfinite, hexponent⟩ := hsamples i (Nat.lt_succ_of_le hi) y (congrArg Except.toOption hy)
    refine ⟨hfinite, (distance_le_of_exponent_le hfinite hexponent).trans ?_⟩
    norm_num
  · rw [hsteps, ← zpow_add₀ two_ne_zero]
    exact zpow_lt_threshold (by norm_num)
  · rw [hsteps, ← zpow_add₀ two_ne_zero]
    exact zpow_lt_threshold (by norm_num)

/-- The integral of `x` over an interval of the length two, with four steps: it is finite, all its operations can be
checked, and it is within the bound. -/
theorem integral_shown_line :
    integral "x".toList 0 2 4 = .ok 2 ∧ (2 : Binary64).isFinite = true ∧
      (∃ r, (Expr.x : Formula).checkedIntegral 0 2 4 = .ok r) ∧ (2 : Binary64).distance ≤ 4 * 2 ^ (2 + -1 : ℤ) := by
  have hkey : integral "x".toList 0 2 4 = .ok 2 := by decide +kernel
  have hvalue : (Expr.x : Formula).integral 0 2 4 = .ok 2 := by decide +kernel
  obtain ⟨h, -⟩ := integral_shown Expr.x 0 2 2 4 "x".toList "2".toList {}
  obtain ⟨hchecked, hbound⟩ := h hvalue
  obtain ⟨hfinite, hdistance⟩ := hbound 2 (-1) bounded_line
  exact ⟨hkey, hfinite, ⟨2, hchecked.1 hfinite⟩, hdistance⟩

/-- The integral of `1e308` over an interval of the length ten is infinite, and the key shows that. -/
theorem integral_overflow :
    integral "1e308".toList 0 10 1 = .ok .infinity ∧
      Task.integral.resultText "1e308".toList { low := 0, high := 10, steps := 1 } = .ok "Infinity".toList := by
  decide +kernel

end PocketCalc.Compute
