import PocketCalc.Expr.Derivative
import PocketCalc.Proofs.Binary64.Overflow
import PocketCalc.Proofs.Expr.Finite

/-!
# Derivatives that no formula describes

* `isDegenerate` — a factorial of the variable, or a remainder by a divisor with the variable, is in the formula;
* `hasFiniteNumbers_derivative` — of the derivatives of formulas with finite numbers, those of degenerate formulas have a
  number in them that is not finite, and no others have;
* `exists_error_of_not_finite` — a formula with such a number has no value.
-/

namespace PocketCalc

open Binary64

variable {L : Libm}

/-! ## The numbers of the rules -/

theorem Binary64.isFinite_ofNat : ∀ n ≤ 3, (Binary64.ofNat n).isFinite = true := by decide +kernel

theorem Number.isFinite_ofNat {n : ℕ} (h : n ≤ 3) : Arithmetic.isFinite (Arithmetic.ofNat n : L.Number) = true :=
  Number.isFinite_iff.2 (Binary64.isFinite_ofNat n h)

theorem Number.isFinite_ln10 : Arithmetic.isFinite (Arithmetic.ln10 : L.Number) = true :=
  Number.isFinite_iff.2 (show (Binary64.ofFloat (Float.ofBits 0x40026BB1BBB55516)).isFinite = true from rfl)

theorem Number.isFinite_nan : Arithmetic.isFinite (Arithmetic.nan : L.Number) = false :=
  show (!Binary64.isNaN Binary64.nan && !Binary64.isInfinite Binary64.nan) = false by decide +kernel

theorem Number.isFinite_sub_one {v : L.Number} (h : Arithmetic.isFinite v = true) :
    Arithmetic.isFinite (v - Arithmetic.ofNat 1) = true :=
  Number.isFinite_iff.2 (Binary64.isFinite_sub_one (Number.isFinite_iff.1 h))

namespace Expr

section

variable {α : Type} {name : Text} {e s : Expr α}

/-! ## Degenerate formulas -/

/-- The formula is a factorial of the variable, or a remainder by a divisor with the variable. -/
def hasNoRule (name : Text) : Expr α → Bool
  | .call .factorial u => u.contains name
  | .binary .mod _ g => g.contains name
  | _ => false

/-- There is such a factorial or such a remainder in the formula. -/
def isDegenerate (name : Text) (e : Expr α) : Bool := e.parts.any (hasNoRule name)

theorem contains_of_mem_parts (hs : s ∈ e.parts) (h : s.contains name = true) : e.contains name = true := by
  induction e with
  | atom a =>
    obtain rfl := List.mem_singleton.1 hs
    exact h
  | neg e ih =>
    rcases List.mem_cons.1 hs with rfl | hs
    · exact h
    · exact ih hs
  | call f e ih =>
    rcases List.mem_cons.1 hs with rfl | hs
    · exact h
    · exact ih hs
  | binary op a b iha ihb =>
    rcases List.mem_cons.1 hs with rfl | hs
    · exact h
    · rcases List.mem_append.1 hs with hs | hs
      · exact Bool.or_eq_true_iff.2 (.inl (iha hs))
      · exact Bool.or_eq_true_iff.2 (.inr (ihb hs))

theorem contains_of_hasNoRule (h : s.hasNoRule name = true) : s.contains name = true := by
  unfold hasNoRule at h
  split at h
  · exact h
  · exact Bool.or_eq_true_iff.2 (.inr h)
  · cases h

/-- A formula without the variable is not degenerate. -/
theorem isDegenerate_eq_false (h : e.contains name = false) : e.isDegenerate name = false := by
  refine Bool.eq_false_iff.2 fun hdegenerate => ?_
  obtain ⟨s, hs, hrule⟩ := List.any_eq_true.1 hdegenerate
  rw [contains_of_mem_parts hs (contains_of_hasNoRule hrule)] at h
  cases h

theorem isDegenerate_call {f : Function} :
    (call f e).isDegenerate name = ((call f e).hasNoRule name || e.isDegenerate name) := rfl

theorem isDegenerate_binary {op : Operator} {a b : Expr α} : (binary op a b).isDegenerate name =
    ((binary op a b).hasNoRule name || (a.isDegenerate name || b.isDegenerate name)) := by
  rw [isDegenerate, parts, List.any_cons, List.any_append]
  rfl

end

/-! ## The rules -/

variable {name : Text} {e f g df dg u outer : Expr L.Number}

theorem hasFiniteNumbers_number {v : L.Number} : (number v).hasFiniteNumbers = Arithmetic.isFinite v := rfl

theorem hasFiniteNumbers_outer {f : Function} (h : f.outer? u = some outer) :
    outer.hasFiniteNumbers = u.hasFiniteNumbers := by
  have h1 := Number.isFinite_ofNat (L := L) (n := 1) (by decide)
  have h2 := Number.isFinite_ofNat (L := L) (n := 2) (by decide)
  have h3 := Number.isFinite_ofNat (L := L) (n := 3) (by decide)
  have h10 := Number.isFinite_ln10 (L := L)
  cases f <;> cases h <;> simp [hasFiniteNumbers, inverse, squared, h1, h2, h3, h10]

theorem hasFiniteNumbers_squared : g.squared.hasFiniteNumbers = g.hasFiniteNumbers := by
  simp [squared, hasFiniteNumbers, Number.isFinite_ofNat]

theorem hasFiniteNumbers_lessOne (h : g.hasFiniteNumbers = true) : g.lessOne.hasFiniteNumbers = true := by
  unfold lessOne
  split
  · exact Number.isFinite_sub_one h
  · exact Bool.and_eq_true_iff.2 ⟨h, Number.isFinite_ofNat (by decide)⟩

theorem hasFiniteNumbers_powerRule (hf : f.hasFiniteNumbers = true) (hg : g.hasFiniteNumbers = true)
    (hdf : f.contains name = false → df.hasFiniteNumbers = true)
    (hdg : g.contains name = false → dg.hasFiniteNumbers = true) :
    (powerRule name f df g dg).hasFiniteNumbers = (df.hasFiniteNumbers && dg.hasFiniteNumbers) := by
  unfold powerRule
  have hless := hasFiniteNumbers_lessOne hg
  split
  next h =>
    have hdg := hdg (by simpa using h)
    simp [hasFiniteNumbers, hf, hg, hless, hdg]
  split
  next h =>
    have hdf := hdf (by simpa using h)
    simp [hasFiniteNumbers, hf, hg, hdf]
  · simp [hasFiniteNumbers, hf, hg, Bool.and_comm]

theorem hasFiniteNumbers_derivative_atom (a : Atom L.Number) : ((atom a).derivative name).hasFiniteNumbers = true := by
  have h0 := Number.isFinite_ofNat (L := L) (n := 0) (by decide)
  have h1 := Number.isFinite_ofNat (L := L) (n := 1) (by decide)
  cases a with
  | number v => exact h0
  | constant c => exact h0
  | var n =>
    rw [derivative, hasFiniteNumbers_number]
    split
    · exact h1
    · exact h0

theorem derivative_call_factorial (u : Expr L.Number) :
    (call .factorial u).derivative name = .number (if u.contains name then Arithmetic.nan else Arithmetic.ofNat 0) := by
  rw [derivative, apply_ite number]
  rfl

/-- The derivative of a factorial of the variable is no number. -/
theorem hasFiniteNumbers_derivative_factorial_eq (u : Expr L.Number) :
    ((call .factorial u).derivative name).hasFiniteNumbers = !u.contains name := by
  rw [derivative_call_factorial, hasFiniteNumbers_number]
  cases u.contains name with
  | false => exact Number.isFinite_ofNat (by decide)
  | true => exact Number.isFinite_nan

theorem eq_factorial_of_outer? {f : Function} (h : f.outer? u = none) : f = .factorial := by
  cases f <;> first | rfl | cases h

theorem hasNoRule_of_outer? {f : Function} (h : f.outer? u = some outer) : (call f u).hasNoRule name = false := by
  cases f <;> first | rfl | cases h

theorem hasFiniteNumbers_derivative_eq (h : e.hasFiniteNumbers = true) :
    (e.derivative name).hasFiniteNumbers = !e.isDegenerate name := by
  induction e with
  | atom a => exact hasFiniteNumbers_derivative_atom a
  | neg e ih => exact ih h
  | call f u ih =>
    rw [isDegenerate_call]
    cases houter : f.outer? u with
    | some outer =>
      have hfinite := (hasFiniteNumbers_outer houter).trans h
      rw [derivative, houter, hasFiniteNumbers, hfinite, hasNoRule_of_outer? houter, Bool.true_and, Bool.false_or, ih h]
    | none =>
      obtain rfl := eq_factorial_of_outer? houter
      rw [hasFiniteNumbers_derivative_factorial_eq, hasNoRule]
      cases hu : u.contains name with
      | true => rfl
      | false => rw [isDegenerate_eq_false hu]; rfl
  | binary op f g ihf ihg =>
    obtain ⟨hf, hg⟩ : f.hasFiniteNumbers = true ∧ g.hasFiniteNumbers = true := Bool.and_eq_true_iff.1 h
    have ihf := ihf hf
    have ihg := ihg hg
    rw [isDegenerate_binary]
    cases op with
    | add | sub => simp [derivative, hasFiniteNumbers, hasNoRule, ihf, ihg]
    | mul => simp [derivative, hasFiniteNumbers, hasNoRule, hf, hg, ihf, ihg]
    | div => simp [derivative, hasFiniteNumbers, hasFiniteNumbers_squared, hasNoRule, hf, hg, ihf, ihg]
    | pow =>
      rw [derivative, hasFiniteNumbers_powerRule hf hg (fun hc => by rw [ihf, isDegenerate_eq_false hc]; rfl)
        (fun hc => by rw [ihg, isDegenerate_eq_false hc]; rfl), ihf, ihg]
      simp [hasNoRule]
    | mod =>
      rw [derivative, hasNoRule]
      by_cases hc : g.contains name = true
      · rw [if_pos hc, hc]
        exact Number.isFinite_nan
      · have hc := Bool.not_eq_true _ ▸ hc
        rw [if_neg (by simp [hc]), hc, ihf, isDegenerate_eq_false hc]
        simp

/-! ## Values -/

variable {x : Option L.Number} {v : L.Number}

theorem hasFiniteNumbers_of_evaluate (h : e.evaluate x = .ok v) : e.hasFiniteNumbers = true := by
  induction e generalizing v with
  | atom a =>
    cases a with
    | number w => exact (finite_of_checked h).2 ▸ (finite_of_checked h).1
    | var n => rfl
    | constant c => rfl
  | neg e ih =>
    obtain ⟨w, hw, -⟩ := evaluate_neg_eq_ok.1 h
    exact ih hw
  | call f e ih =>
    obtain ⟨w, hw, -⟩ := evaluate_call_eq_ok.1 h
    exact ih hw
  | binary op a b iha ihb =>
    obtain ⟨w, z, hw, hz, -⟩ := evaluate_binary_eq_ok.1 h
    exact Bool.and_eq_true_iff.2 ⟨iha hw, ihb hz⟩

/-- A formula with a number that is not finite has no value. -/
theorem exists_error_of_not_finite (x : Option L.Number) (h : e.hasFiniteNumbers = false) :
    ∃ err, e.evaluate x = .error err := by
  rcases he : e.evaluate x with err | v
  · exact ⟨err, rfl⟩
  · rw [hasFiniteNumbers_of_evaluate he] at h
    cases h

/-- **Degenerate derivatives.** The derivative of a formula with finite numbers has a number in it that is not finite
exactly if there is a factorial of the variable or a remainder by a divisor with the variable in the formula; and then the
derivative has a value at no point. -/
theorem hasFiniteNumbers_derivative (name : Text) (e : Expr L.Number) (h : e.hasFiniteNumbers = true) :
    ((e.derivative name).hasFiniteNumbers = false ↔ e.isDegenerate name = true) ∧
      (e.isDegenerate boundName = true → ∀ p, ∃ err, e.derivativeAt p = .error err) := by
  constructor
  · rw [hasFiniteNumbers_derivative_eq h, Bool.not_eq_false']
  · intro hdegenerate p
    refine exists_error_of_not_finite (some p) ?_
    rw [hasFiniteNumbers_derivative_eq h, hdegenerate]
    rfl

/-- The formula `sin(fact(x)) * 2`. -/
def factorialExample : Expr Libm.powers.Number :=
  .binary .mul (.call .sin (.call .factorial Expr.x)) (.number (Arithmetic.ofNat 2))

/-- The derivative of that formula has a value at no point. -/
theorem hasFiniteNumbers_derivative_factorial :
    (factorialExample.derivative boundName).hasFiniteNumbers = false ∧
      ∀ p, ∃ err, factorialExample.derivativeAt p = .error err := by
  have h := hasFiniteNumbers_derivative boundName factorialExample (by decide +kernel)
  exact ⟨h.1.2 (by decide +kernel), h.2 (by decide +kernel)⟩

end Expr

end PocketCalc
