import PocketCalc.Proofs.Formula.DerivativeDepth

/-!
# How deep derivatives become

A derivative is at most four times as deep as its formula, so that the derivative of a text has at most 1024 levels.

* `depth_derivative_pow` — a power with the variable in base and exponent puts four levels around the derivative of its
  base, more than any other rule does;
* `tower n` — the formula `acos(x)^x^…^x`, grouped from the left, of depth `n + 2`;
* `depth_derivative_tower`, `exists_deep_derivative` — its derivative misses four times its depth by one only, so that the
  bound is as low as it can be, for formulas of any depth and for texts;
* `derivative_shallow` — the bound, for all formulas and all texts.
-/

namespace PocketCalc.Formula

open PocketCalc.Expr

variable {f : Formula} (n : ℕ)

/-! ## Towers of powers -/

/-- The rule for the variable in base and exponent puts four levels around the derivative of the base: the product with the
power, the sum, the quotient by the base, and the product with the exponent. -/
theorem depth_derivative_pow (hf : f.contains boundName = true) (hdepth : f.depth ≤ (f.derivative boundName).depth) :
    ((Expr.binary .pow f x).derivative boundName).depth = (f.derivative boundName).depth + 4 := by
  have hpos := f.depth_pos
  have hx : (x : Formula).contains boundName = true := rfl
  have hleaf : (x : Formula).depth = 1 ∧ ((x : Formula).derivative boundName).depth = 1 := ⟨rfl, rfl⟩
  simp only [derivative, powerRule, hf, hx, Bool.not_true, Bool.false_eq_true, if_false, depth, hleaf]
  omega

/-- The formula `acos(x)^x^…^x` with `n` powers, grouped from the left. -/
def tower : ℕ → Formula
  | 0 => .call .acos x
  | n + 1 => .binary .pow (tower n) x

theorem depth_tower : (tower n).depth = n + 2 := by
  induction n with
  | zero => rfl
  | succ n ih =>
    have hdepth : (tower (n + 1)).depth = max (tower n).depth 1 + 1 := rfl
    rw [hdepth, ih]
    omega

theorem contains_tower : (tower n).contains boundName = true := by
  induction n with
  | zero => rfl
  | succ n ih => exact Bool.or_eq_true_iff.2 (.inl ih)

theorem allAtoms_tower : (tower n).AllAtoms fun a => a.Writable ∧ a.Unsigned := by
  induction n with
  | zero => exact ⟨rfl, trivial⟩
  | succ n ih => exact ⟨ih, rfl, trivial⟩

/-- A tower is read as long as it is not too deep. -/
theorem parse_tower (h : n + 2 ≤ maxDepth) : parse (tower n).text = .ok (tower n) := by
  rw [parse_unsigned (allAtoms_tower n), depth_tower, if_pos h]

/-- **The derivative of a tower misses four times the depth of the tower by one.** -/
theorem depth_derivative_tower : ((tower n).derivative boundName).depth = 4 * (tower n).depth - 1 := by
  induction n with
  | zero => rfl
  | succ n ih =>
    have hdepth := depth_tower n
    have hpow : ((tower (n + 1)).derivative boundName).depth = ((tower n).derivative boundName).depth + 4 :=
      depth_derivative_pow (contains_tower n) (by omega)
    rw [hpow, ih, hdepth, depth_tower (n + 1)]
    omega

/-! ## The bound -/

/-- **No lower bound is true.** At each depth but that of a leaf there is a formula whose derivative is four times as deep,
less one, and at the limit that formula is read from a text. -/
theorem exists_deep_derivative :
    (∀ d, 2 ≤ d → ∃ e : Formula, e.depth = d ∧ (e.derivative boundName).depth = 4 * d - 1) ∧
      ∃ t f, parse t = .ok f ∧ (f.derivative boundName).depth = 4 * maxDepth - 1 := by
  refine ⟨fun d hd => ?_, (tower 254).text, tower 254, parse_tower 254 (by decide), ?_⟩
  · obtain ⟨n, rfl⟩ := Nat.exists_eq_add_of_le' hd
    exact ⟨tower n, depth_tower n, by rw [depth_derivative_tower, depth_tower]⟩
  · rw [depth_derivative_tower, depth_tower]
    rfl

/-- **A derivative is at most four times as deep as its formula**, by whatever variable; and the derivative of a text is at
most four times as deep as formulas that are read may be. -/
theorem derivative_shallow (name : Text) :
    (∀ e : Formula, (e.derivative name).depth ≤ 4 * e.depth) ∧
      ∀ t f, parse t = .ok f → (f.derivative name).depth ≤ 4 * maxDepth := by
  have hshallow (e : Formula) : (e.derivative name).depth ≤ 4 * e.depth := (depth_derivative_le e).le
  refine ⟨hshallow, fun t f h => (hshallow f).trans ?_⟩
  exact Nat.mul_le_mul_left 4 (sound_of_parse h).2

/-- The tower at the limit is read, and its derivative is within both bounds. -/
theorem derivative_shallow_tower :
    ((tower 254).derivative boundName).depth ≤ 4 * (tower 254).depth ∧ parse (tower 254).text = .ok (tower 254) ∧
      ((tower 254).derivative boundName).depth ≤ 4 * maxDepth := by
  have hparse := parse_tower 254 (by decide)
  exact ⟨(derivative_shallow boundName).1 _, hparse, (derivative_shallow boundName).2 _ _ hparse⟩

end PocketCalc.Formula
