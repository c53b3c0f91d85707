import PocketCalc.Proofs.Expr.Degenerate
import PocketCalc.Proofs.Expr.NormalForm

/-!
# What simplification hides

The number that stands in the place of a derivative without formula is not finite. Simplification keeps it where it is
added, negated and divided, but drops it where the other factor of a product is zero.

* `hasFiniteNumbers_combined_add`, … — which numbers an operation on simple formulas keeps;
* `vanishes` — the simple form of the formula is zero;
* `isExposed` — there is a factorial of the variable, or a remainder by a divisor with the variable, whose derivative no
  vanishing factor hides;
* `hasFiniteNumbers_simplify_derivative` — the simple form of the derivative has a number that is not finite exactly then.
-/

namespace PocketCalc.Expr

open Binary64

variable {L : Libm} {a b e f g u : Expr L.Number} {v w : L.Number} {name : Text} {op : Operator} {n : ℕ}

/-! ## Numbers that are kept -/

theorem hasFiniteNumbers_negated (e : Expr L.Number) : e.negated.hasFiniteNumbers = e.hasFiniteNumbers := by
  unfold negated
  split
  · exact Number.isFinite_neg
  · rfl
  · rfl

theorem hasFiniteNumbers_of_isNat (hn : n ≤ 3) (h : a.isNat n = true) : a.hasFiniteNumbers = true := by
  unfold isNat at h
  split at h
  next w hw =>
    rw [number?_eq_some] at hw
    subst hw
    rw [hasFiniteNumbers_number, Number.isFinite_iff, Agrees.isFinite (Number.eq_iff.1 h).1]
    exact Binary64.isFinite_ofNat n hn
  · cases h

theorem isFinite_of_raw (hop : op = .add ∨ op = .sub ∨ op = .mul) (h : Arithmetic.isFinite (op.raw v w) = true) :
    Arithmetic.isFinite v = true ∧ Arithmetic.isFinite w = true := by
  rw [Number.isFinite_iff] at h ⊢
  rw [Number.isFinite_iff]
  rcases hop with rfl | rfl | rfl
  · exact isFinite_of_add h
  · exact isFinite_of_sub h
  · exact isFinite_of_mul h

/-- Sums and differences keep the numbers of both operands. -/
theorem hasFiniteNumbers_combined_sum (hop : op = .add ∨ op = .sub) :
    (combined op a b).hasFiniteNumbers = (a.hasFiniteNumbers && b.hasFiniteNumbers) := by
  rcases combined_cases op a b with ⟨t, s, rfl, rfl, hfinite, hcombined⟩ | ⟨-, hcombined⟩
  · obtain ⟨ht, hs⟩ := isFinite_of_raw (hop.imp_right .inl) hfinite
    simp only [hcombined, hasFiniteNumbers_number, hfinite, ht, hs, Bool.true_and]
  · rw [hcombined]
    have ha := hasFiniteNumbers_of_isNat (a := a) (n := 0) (by decide)
    have hb := hasFiniteNumbers_of_isNat (a := b) (n := 0) (by decide)
    rcases hop with rfl | rfl
    · rw [reduced]
      split
      next h => rw [ha h, Bool.true_and]
      · split
        next h => rw [hb h, Bool.and_true]
        · rfl
    · rw [reduced]
      split
      next h => rw [hb h, Bool.and_true]
      · split
        next h => rw [ha h, Bool.true_and, hasFiniteNumbers_negated]
        · rfl

/-- A product keeps the numbers of a factor, unless the other factor is zero. -/
theorem hasFiniteNumbers_combined_mul : (combined .mul a b).hasFiniteNumbers =
    ((a.hasFiniteNumbers || b.isNat 0) && (b.hasFiniteNumbers || a.isNat 0)) := by
  rcases combined_cases .mul a b with ⟨t, s, rfl, rfl, hfinite, hcombined⟩ | ⟨-, hcombined⟩
  · obtain ⟨ht, hs⟩ := isFinite_of_raw (.inr (.inr rfl)) hfinite
    simp only [hcombined, hasFiniteNumbers_number, hfinite, ht, hs, Bool.true_and, Bool.true_or]
  · rw [hcombined]
    have ha {n : ℕ} (hn : n ≤ 3) (h : a.isNat n = true) := hasFiniteNumbers_of_isNat hn h
    have hb {n : ℕ} (hn : n ≤ 3) (h : b.isNat n = true) := hasFiniteNumbers_of_isNat hn h
    rw [reduced]
    split
    next h =>
      rw [hasFiniteNumbers_number, Number.isFinite_ofNat (by decide)]
      rcases Bool.or_eq_true_iff.1 h with h | h
      · rw [ha (by decide) h, h, Bool.true_or, Bool.or_true]
        rfl
      · rw [hb (by decide) h, h, Bool.true_or, Bool.or_true]
        rfl
    next h =>
      obtain ⟨ha0, hb0⟩ : a.isNat 0 = false ∧ b.isNat 0 = false := by simpa using h
      rw [ha0, hb0, Bool.or_false, Bool.or_false]
      split
      next h => rw [ha (by decide) h, Bool.true_and]
      · split
        next h => rw [hb (by decide) h, Bool.and_true]
        · rfl

/-- A quotient keeps the numbers of the dividend. -/
theorem hasFiniteNumbers_combined_div (hb : b.hasFiniteNumbers = true) :
    (combined .div a b).hasFiniteNumbers = a.hasFiniteNumbers := by
  rcases combined_cases .div a b with ⟨t, s, rfl, rfl, hfinite, hcombined⟩ | ⟨-, hcombined⟩
  · have ht : Arithmetic.isFinite t = true := Number.isFinite_iff.2 (isFinite_of_div (Number.isFinite_iff.1 hfinite))
    simp only [hcombined, hasFiniteNumbers_number, hfinite, ht]
  · rw [hcombined, reduced]
    split
    · rfl
    · rw [hasFiniteNumbers, hb, Bool.and_true]

theorem hasFiniteNumbers_combined (ha : a.hasFiniteNumbers = true) (hb : b.hasFiniteNumbers = true) :
    (combined op a b).hasFiniteNumbers = true := by
  cases op with
  | add | sub => rw [hasFiniteNumbers_combined_sum (by simp), ha, hb]; rfl
  | mul => rw [hasFiniteNumbers_combined_mul, ha, hb]; rfl
  | div => rw [hasFiniteNumbers_combined_div hb, ha]
  | pow =>
    rcases combined_cases .pow a b with ⟨t, s, rfl, rfl, hfinite, hcombined⟩ | ⟨-, hcombined⟩
    · rwa [hcombined]
    · rw [hcombined, reduced]
      split
      · exact ha
      · split
        · exact Number.isFinite_ofNat (by decide)
        · exact Bool.and_eq_true_iff.2 ⟨ha, hb⟩
  | mod =>
    rcases combined_cases .mod a b with ⟨t, s, rfl, rfl, hfinite, hcombined⟩ | ⟨-, hcombined⟩
    · rwa [hcombined]
    · rw [hcombined]
      exact Bool.and_eq_true_iff.2 ⟨ha, hb⟩

/-- The simple form of a formula with finite numbers has finite numbers. -/
theorem hasFiniteNumbers_simplify (h : e.hasFiniteNumbers = true) : e.simplify.hasFiniteNumbers = true := by
  induction e with
  | atom a => exact h
  | neg e ih => exact (hasFiniteNumbers_negated e.simplify).trans (ih h)
  | call f e ih => exact ih h
  | binary op a b iha ihb =>
    obtain ⟨ha, hb⟩ := Bool.and_eq_true_iff.1 h
    exact hasFiniteNumbers_combined (iha ha) (ihb hb)

/-! ## What is hidden -/

section

variable {α : Type} [Arithmetic α]

/-- The simple form of the formula is zero. -/
def vanishes (e : Expr α) : Bool := e.simplify.isNat 0

/-- There is a factorial of the variable in the formula, or a remainder by a divisor with the variable, that the
derivative of no formula around it multiplies by a vanishing factor. -/
def isExposed (name : Text) : Expr α → Bool
  | .atom _ => false
  | .neg e => e.isExposed name
  | .call f u =>
    match f.outer? u with
    | some outer => u.isExposed name && !outer.vanishes
    | none => u.contains name
  | .binary .add f g | .binary .sub f g => f.isExposed name || g.isExposed name
  | .binary .mul f g | .binary .div f g => f.isExposed name && !g.vanishes || g.isExposed name && !f.vanishes
  | .binary .pow f g =>
    if !g.contains name then f.isExposed name && !(binary .mul g (.binary .pow f g.lessOne)).vanishes
    else if !f.contains name then g.isExposed name && !(binary .mul (.binary .pow f g) (.call .ln f)).vanishes
    else (g.isExposed name || f.isExposed name && !g.vanishes) && !(binary .pow f g).vanishes
  | .binary .mod f g => g.contains name || f.isExposed name

end

theorem simplify_binary : (binary op a b).simplify = combined op a.simplify b.simplify := rfl

theorem hasFiniteNumbers_simplify_mul_left (hb : b.hasFiniteNumbers = true) :
    (binary .mul a b).simplify.hasFiniteNumbers = (a.simplify.hasFiniteNumbers || b.vanishes) := by
  rw [simplify_binary, hasFiniteNumbers_combined_mul, hasFiniteNumbers_simplify hb, Bool.true_or, Bool.and_true, vanishes]

theorem hasFiniteNumbers_simplify_mul_right (ha : a.hasFiniteNumbers = true) :
    (binary .mul a b).simplify.hasFiniteNumbers = (b.simplify.hasFiniteNumbers || a.vanishes) := by
  rw [simplify_binary, hasFiniteNumbers_combined_mul, hasFiniteNumbers_simplify ha, Bool.true_or, Bool.true_and, vanishes]

theorem hasFiniteNumbers_simplify_sum (hop : op = .add ∨ op = .sub) : (binary op a b).simplify.hasFiniteNumbers =
    (a.simplify.hasFiniteNumbers && b.simplify.hasFiniteNumbers) := by
  rw [simplify_binary, hasFiniteNumbers_combined_sum hop]

theorem hasFiniteNumbers_simplify_div (hb : b.hasFiniteNumbers = true) :
    (binary .div a b).simplify.hasFiniteNumbers = a.simplify.hasFiniteNumbers := by
  rw [simplify_binary, hasFiniteNumbers_combined_div (hasFiniteNumbers_simplify hb)]

theorem hasFiniteNumbers_simplify_powerRule {df dg : Expr L.Number} (hf : f.hasFiniteNumbers = true)
    (hg : g.hasFiniteNumbers = true) (hdf : df.simplify.hasFiniteNumbers = !f.isExposed name)
    (hdg : dg.simplify.hasFiniteNumbers = !g.isExposed name) :
    (powerRule name f df g dg).simplify.hasFiniteNumbers = !(binary .pow f g).isExposed name := by
  have hpow : (binary .pow f g).hasFiniteNumbers = true := Bool.and_eq_true_iff.2 ⟨hf, hg⟩
  have hln : (call .ln f).hasFiniteNumbers = true := hf
  rw [powerRule, isExposed]
  split
  · have hfactor : (binary .mul g (binary .pow f g.lessOne)).hasFiniteNumbers = true := by
      simp [hasFiniteNumbers, hf, hg, hasFiniteNumbers_lessOne hg]
    rw [hasFiniteNumbers_simplify_mul_right hfactor, hdf]
    simp
  split
  · have hfactor : (binary .mul (binary .pow f g) (call .ln f)).hasFiniteNumbers = true :=
      Bool.and_eq_true_iff.2 ⟨hpow, hln⟩
    rw [hasFiniteNumbers_simplify_mul_right hfactor, hdg]
    simp
  · have hlog : (call .ln f).vanishes = false := rfl
    rw [hasFiniteNumbers_simplify_mul_right hpow, hasFiniteNumbers_simplify_sum (.inl rfl),
      hasFiniteNumbers_simplify_mul_left hln, hasFiniteNumbers_simplify_div hf, hasFiniteNumbers_simplify_mul_right hg,
      hdf, hdg, hlog]
    simp

/-- **What simplification hides.** The simple form of the derivative of a formula with finite numbers has a number that is
not finite exactly if something without derivative is exposed in the formula. -/
theorem hasFiniteNumbers_simplify_derivative (h : e.hasFiniteNumbers = true) :
    (e.derivative name).simplify.hasFiniteNumbers = !e.isExposed name := by
  induction e with
  | atom a => exact hasFiniteNumbers_simplify (hasFiniteNumbers_derivative_atom a)
  | neg e ih => exact (hasFiniteNumbers_negated _).trans (ih h)
  | call f u ih =>
    rw [isExposed]
    cases houter : f.outer? u with
    | some outer =>
      have hfinite : outer.hasFiniteNumbers = true := (hasFiniteNumbers_outer houter).trans h
      rw [derivative, houter, hasFiniteNumbers_simplify_mul_right hfinite, ih h]
      simp
    | none =>
      obtain rfl := eq_factorial_of_outer? houter
      -- a number is its own simple form
      have hsimple : ((call .factorial u).derivative name).simplify = (call .factorial u).derivative name := by
        rw [derivative_call_factorial]
        rfl
      rw [hsimple, hasFiniteNumbers_derivative_factorial_eq]
  | binary op f g ihf ihg =>
    obtain ⟨hf, hg⟩ : f.hasFiniteNumbers = true ∧ g.hasFiniteNumbers = true := Bool.and_eq_true_iff.1 h
    have ihf := ihf hf
    have ihg := ihg hg
    cases op with
    | add =>
      rw [derivative, isExposed, hasFiniteNumbers_simplify_sum (.inl rfl), ihf, ihg]
      simp
    | sub =>
      rw [derivative, isExposed, hasFiniteNumbers_simplify_sum (.inr rfl), ihf, ihg]
      simp
    | mul =>
      rw [derivative, isExposed, hasFiniteNumbers_simplify_sum (.inl rfl), hasFiniteNumbers_simplify_mul_left hg,
        hasFiniteNumbers_simplify_mul_right hf, ihf, ihg]
      simp
    | div =>
      rw [derivative, isExposed, hasFiniteNumbers_simplify_div (hasFiniteNumbers_squared.trans hg),
        hasFiniteNumbers_simplify_sum (.inr rfl), hasFiniteNumbers_simplify_mul_left hg,
        hasFiniteNumbers_simplify_mul_right hf, ihf, ihg]
      simp
    | pow => exact hasFiniteNumbers_simplify_powerRule hf hg ihf ihg
    | mod =>
      rw [derivative, isExposed]
      by_cases hc : g.contains name = true
      · rw [if_pos hc, hc]
        exact Number.isFinite_nan
      · have hc : g.contains name = false := Bool.not_eq_true _ ▸ hc
        rw [if_neg (by simp [hc]), ihf, hc, Bool.false_or]

/-- What is exposed is degenerate. -/
theorem isDegenerate_of_isExposed (h : e.hasFiniteNumbers = true) (hexposed : e.isExposed name = true) :
    e.isDegenerate name = true := by
  have hsimple : (e.derivative name).simplify.hasFiniteNumbers = !e.isExposed name :=
    hasFiniteNumbers_simplify_derivative h
  have hderivative : (e.derivative name).hasFiniteNumbers = !e.isDegenerate name := hasFiniteNumbers_derivative_eq h
  cases hdegenerate : e.isDegenerate name with
  | true => rfl
  | false =>
    rw [hdegenerate] at hderivative
    rw [hasFiniteNumbers_simplify hderivative, hexposed] at hsimple
    cases hsimple

end PocketCalc.Expr
