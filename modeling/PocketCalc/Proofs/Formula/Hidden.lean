import PocketCalc.Proofs.Expr.Exposed
import PocketCalc.Proofs.Formula.Derivative

/-!
# Derivatives that a text does not show

A text has a derivative as a text unless the simple form of the derivative has a number that is not finite. Simplification
may have hidden such a number: then there is a text, although the derivative has a value at no point.

* `derivativeText_eq` — when there is a text;
* `derivativeText_hidden` — a text that there should not be.
-/

namespace PocketCalc.Formula

open Binary64 PocketCalc.Expr

variable {L : Libm} {t : Text} {f : Formula}

/-- Which numbers are finite does not depend on the library. -/
theorem hasFiniteNumbers_formula (L : Libm) (f : Formula) : (L.formula f).hasFiniteNumbers = f.hasFiniteNumbers := by
  induction f with
  | atom a => cases a <;> rfl
  | neg e ih => exact ih
  | call g e ih => exact ih
  | binary op a b iha ihb => exact congrArg₂ and iha ihb

/-- Where the derivative of a degenerate formula is asked for at a point, there is an error. -/
theorem exists_error_of_derivativeAt (hparse : parse t = .ok f) (hfinite : f.hasFiniteNumbers = true)
    (h : (L.formula f).isDegenerate boundName = true) (p : L.Number) :
    ∃ err, L.derivativeAt t p = .error (.eval err) := by
  have hderivative : ((L.formula f).derivative boundName).hasFiniteNumbers = false := by
    rw [hasFiniteNumbers_derivative_eq ((hasFiniteNumbers_formula L f).trans hfinite), h]
    rfl
  obtain ⟨err, herr⟩ := exists_error_of_not_finite (some p) hderivative
  refine ⟨err, ?_⟩
  have hread : Compute.read t = .ok f := Compute.read_eq_ok.2 hparse
  rw [Libm.derivativeAt, hread]
  exact congrArg (Except.mapError CalcError.eval) herr

/-- **The text of a derivative, and what it may hide.** A text that is read as a formula with finite numbers has a
derivative as a text, that of the simple derivative, exactly if nothing without derivative is exposed in the formula; else
it is refused. What is exposed is degenerate, so that the derivative has a value at no point; but a degenerate formula may
have nothing exposed. -/
theorem derivativeText_eq (L : Libm) (t : Text) (f : Formula) (hparse : parse t = .ok f)
    (hfinite : f.hasFiniteNumbers = true) :
    L.derivativeText t = (if (L.formula f).isExposed boundName then .error (.eval (.domain .noDerivative))
        else .ok (L.simpleDerivative f).text) ∧
      ((L.formula f).isExposed boundName = true → (L.formula f).isDegenerate boundName = true) ∧
      ((L.formula f).isDegenerate boundName = true → ∀ p, ∃ err, L.derivativeAt t p = .error (.eval err)) := by
  have hnumbers : (L.formula f).hasFiniteNumbers = true := (hasFiniteNumbers_formula L f).trans hfinite
  refine ⟨?_, isDegenerate_of_isExposed hnumbers, exists_error_of_derivativeAt hparse hfinite⟩
  have hread : Compute.read t = .ok f := Compute.read_eq_ok.2 hparse
  have hsimple : (L.simpleDerivative f).hasFiniteNumbers = !(L.formula f).isExposed boundName :=
    (hasFiniteNumbers_formula L _).symm.trans (hasFiniteNumbers_simplify_derivative hnumbers)
  rw [Libm.derivativeText, hread]
  show (if (L.simpleDerivative f).hasFiniteNumbers then _ else _) = _
  rw [hsimple]
  cases (L.formula f).isExposed boundName <;> rfl

/-- The factorial of `x` has no derivative as a text; the derivative of zero times the factorial is zero as a text, and has
a value at no point all the same. -/
theorem derivativeText_eq_factorial :
    Libm.powers.derivativeText "fact(x)".toList = .error (.eval (.domain .noDerivative)) ∧
      Libm.powers.derivativeText "0 * fact(x)".toList = .ok "0".toList ∧
      ∀ p, ∃ err, Libm.powers.derivativeAt "0 * fact(x)".toList p = .error (.eval err) := by
  have hfactorial := derivativeText_eq Libm.powers "fact(x)".toList (.call .factorial Expr.x) (by decide +kernel)
    (by decide +kernel)
  have hproduct := derivativeText_eq Libm.powers "0 * fact(x)".toList
    (.binary .mul (.number 0) (.call .factorial Expr.x)) (by decide +kernel) (by decide +kernel)
  refine ⟨hfactorial.1.trans (by decide +kernel), hproduct.1.trans (by decide +kernel), hproduct.2.2 (by decide +kernel)⟩

/-- A derivative that a text hides: there is a factorial of the variable. -/
theorem derivativeText_hidden :
    ∃ f, parse "0*fact(x)".toList = .ok f ∧ f.hasFiniteNumbers = true ∧ f.isDegenerate boundName = true ∧
      Compute.derivativeText "0*fact(x)".toList = .ok "0".toList := by
  refine ⟨.binary .mul (.number 0) (.call .factorial Expr.x), ?_⟩
  decide +kernel

end PocketCalc.Formula
