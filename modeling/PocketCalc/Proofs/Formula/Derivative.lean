import PocketCalc.Calculator.Compute
import PocketCalc.Proofs.Expr.Rewriting
import PocketCalc.Proofs.Formula.RoundTrip

/-!
# The derivative of a text, as a text and as a value

* `Libm.derivativeText`, `Libm.derivativeAt` — both, computed by means of a library; by means of that of the machine
  they are the ones of the calculator;
* `parse_of_derivativeText` — the text of a derivative is read as the simple derivative with negations in the place of
  the minus signs of its numbers, as far as the depth allows;
* `evaluate_derivativeText` — what is read has the value that the derivative has.
-/

namespace PocketCalc

open Binary64 PocketCalc.Expr

/-! ## With a library -/

namespace Libm

variable (L : Libm)

/-- A formula, with numbers that are computed with by means of a library. -/
def formula (f : Formula) : Expr L.Number := f

/-- The simple form of the derivative of a formula. -/
def simpleDerivative (f : Formula) : Formula := ((L.formula f).derivative boundName).simplify

/-- The value at a point of the derivative of a text. -/
def derivativeAt (t : Text) (p : L.Number) : Except CalcError L.Number := do
  ((L.formula (← Compute.read t)).derivativeAt p).mapError .eval

/-- The text of the simplified derivative of a text; none if a number in it is not finite. -/
def derivativeText (t : Text) : Except CalcError Text := do
  let d := L.simpleDerivative (← Compute.read t)
  if d.hasFiniteNumbers then .ok d.text else .error (.eval (.domain .noDerivative))

theorem derivativeAt_system : Libm.system.derivativeAt = Compute.derivativeAt := rfl

theorem derivativeText_system : Libm.system.derivativeText = Compute.derivativeText := rfl

end Libm

variable {L : Libm} {t d : Text} {p v : L.Number} {f : Formula}

theorem Compute.read_eq_ok : Compute.read t = .ok f ↔ Formula.parse t = .ok f := mapError_eq_ok

theorem Libm.derivativeAt_eq_ok : L.derivativeAt t p = .ok v ↔
    ∃ f, Formula.parse t = .ok f ∧ ((L.formula f).derivative boundName).evaluate (some p) = .ok v := by
  rw [Libm.derivativeAt, bind_eq_ok]
  exact exists_congr fun f => and_congr Compute.read_eq_ok mapError_eq_ok

theorem Libm.derivativeText_eq_ok : L.derivativeText t = .ok d ↔
    ∃ f, Formula.parse t = .ok f ∧ (L.simpleDerivative f).hasFiniteNumbers = true ∧
      (L.simpleDerivative f).text = d := by
  rw [Libm.derivativeText, bind_eq_ok]
  refine exists_congr fun f => and_congr Compute.read_eq_ok ?_
  by_cases hfinite : (L.simpleDerivative f).hasFiniteNumbers = true <;> simp [hfinite]

/-! ## What the text of the derivative is read as -/

/-- A formula that was read has no variable but the bound one. -/
theorem Expr.eq_boundName_of_readable {name : Text} (h : f.AllAtoms Atom.Readable) (hc : f.contains name = true) :
    name = boundName := by
  induction f with
  | atom a =>
    cases a with
    | number v => cases hc
    | var other =>
      obtain rfl : other = name := of_decide_eq_true hc
      exact h
    | constant c => cases hc
  | neg e ih => exact ih h hc
  | call g e ih => exact ih h hc
  | binary op a b iha ihb => exact (Bool.or_eq_true_iff.1 hc).elim (iha h.1) (ihb h.2)

/-- A formula with finite numbers and no variable but the bound one is read from its text, unless it is too deep. -/
theorem Formula.parse_of_writable (h : f.AllAtoms Atom.Writable) :
    parse f.text = if f.unsigned.depth ≤ maxDepth then .ok f.unsigned else .error .tooDeep := by
  have htext : f.unsigned.text = f.text := write_unsigned h 0
  rw [← htext]
  exact parse_unsigned (allAtoms_unsigned h)

/-- The derivative of a formula that was read can be written, if its numbers are finite. -/
theorem writable_simpleDerivative (h : Formula.parse t = .ok f)
    (hfinite : (L.simpleDerivative f).hasFiniteNumbers = true) :
    (L.simpleDerivative f).AllAtoms Atom.Writable := by
  refine allAtoms_writable (fun name hname => ?_) hfinite
  have hderivative : ((L.formula f).derivative boundName).contains name = true := contains_of_simplify hname
  have hformula : (L.formula f).contains name = true := contains_of_derivative hderivative
  exact eq_boundName_of_readable (sound_of_parse h).1 hformula

/-- **What the text of a derivative is read as.** -/
theorem parse_of_derivativeText (h : L.derivativeText t = .ok d) :
    ∃ f, Formula.parse t = .ok f ∧
      Formula.parse d = if (L.simpleDerivative f).unsigned.depth ≤ maxDepth
        then .ok (L.simpleDerivative f).unsigned else .error .tooDeep := by
  obtain ⟨f, hf, hfinite, rfl⟩ := Libm.derivativeText_eq_ok.1 h
  exact ⟨f, hf, Formula.parse_of_writable (writable_simpleDerivative hf hfinite)⟩

namespace Formula

/-! ## The value of the text -/

/-- **The text of the derivative has the value of the derivative.** If a text has a derivative as a text, what is read
from that text has at every finite point where the derivative has a value an equal one: only the sign of a zero may be
another. -/
theorem evaluate_derivativeText (hL : L.Lawful) (t d : Text) (f : Formula) (p v : L.Number)
    (hp : Arithmetic.isFinite p = true) (htext : L.derivativeText t = .ok d) (hparse : parse d = .ok f)
    (hv : L.derivativeAt t p = .ok v) :
    ∃ v', (L.formula f).evaluate (some p) = .ok v' ∧ Arithmetic.eq v v' = true := by
  have hx : ∀ q, some p = some q → Arithmetic.isFinite q = true := by
    rintro q ⟨⟩
    exact hp
  obtain ⟨source, hsource, hread⟩ := parse_of_derivativeText htext
  obtain ⟨source', hsource', hvalue⟩ := Libm.derivativeAt_eq_ok.1 hv
  obtain rfl : source = source' := Except.ok.inj (hsource.symm.trans hsource')
  obtain rfl : f = (L.simpleDerivative source).unsigned := by
    rw [hparse] at hread
    split at hread
    · exact Except.ok.inj hread
    · cases hread
  have hsimple : HasEqual ((L.formula (L.simpleDerivative source)).evaluate (some p)) v :=
    (keepsValues_simplify hL hx).evaluate hvalue
  exact (keepsValues_unsigned hL hx).hasEqual hsimple

/-- The derivative of `(0 - 2) * x ^ 2` is `-2 * (2 * x)`, and its value at three is minus twelve. -/
theorem evaluate_derivativeText_square :
    parse "-2 * (2 * x)".toList = .ok (.binary .mul (.neg (.number 2)) (.binary .mul (.number 2) Expr.x)) ∧
      ∃ v' : Libm.powers.Number,
        (Libm.powers.formula (.binary .mul (.neg (.number 2)) (.binary .mul (.number 2) Expr.x))).evaluate
          (some (Arithmetic.ofNat 3)) = .ok v' ∧ Arithmetic.eq (-Arithmetic.ofNat 12) v' = true := by
  refine ⟨by decide +kernel, ?_⟩
  exact evaluate_derivativeText Libm.powers_lawful "(0 - 2) * x ^ 2".toList "-2 * (2 * x)".toList _
    (Arithmetic.ofNat 3) (-Arithmetic.ofNat 12) (by decide +kernel) (by decide +kernel) (by decide +kernel)
    (by decide +kernel)

end Formula

end PocketCalc
