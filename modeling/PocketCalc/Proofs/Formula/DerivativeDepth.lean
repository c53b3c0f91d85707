import PocketCalc.Proofs.Expr.Depth
import PocketCalc.Proofs.Formula.Derivative

/-!
# How deep a text may be for its derivative to be read

* `parse_derivativeText` — the text of a derivative is read exactly if the derivative is not too deep; it is not if the
  text describes a formula at most 64 levels deep, a quarter of the depth that is read;
* `repeatedSum first term n` — the formula `first + term + … + term`, its text, its depth and its derivative;
* `tangentSum n` — the formula `tan(x) + x + … + x` with `n` summands `x`, of depth `n + 2`;
* `derivativeText_tangentSum`, `parse_slopeSum` — the text of its derivative has depth `n + 4`, so that for two
  depths within the limit it is not read.
-/

namespace PocketCalc.Formula

open Binary64 PocketCalc.Expr

/-! ## Depth and reading -/

/-- The derivative with negations for minus signs is at most four times as deep. -/
theorem depth_derivative_unsigned_le (f : Formula) :
    (f.derivative boundName).simplify.unsigned.depth ≤ 4 * f.depth := by
  have hunsigned := depth_unsigned_le (f.derivative boundName).simplify
  have hsimplify := depth_simplify_le (f.derivative boundName)
  have hderivative : (f.derivative boundName).depth < 4 * f.depth := depth_derivative_le f
  omega

/-- **When the text of a derivative is read.** It is read as the simple derivative with negations for the minus signs of
its numbers, and it is refused only if that formula is too deep, which it is not if four times the depth of the
formula is within the limit. -/
theorem parse_derivativeText (t d : Text) (h : Compute.derivativeText t = .ok d) :
    ∃ f d', parse t = .ok f ∧ d' = (f.derivative boundName).simplify.unsigned ∧
      parse d = (if d'.depth ≤ maxDepth then .ok d' else .error .tooDeep) ∧
      (4 * f.depth ≤ maxDepth → parse d = .ok d') := by
  rw [← Libm.derivativeText_system] at h
  obtain ⟨f, hf, hread⟩ := parse_of_derivativeText h
  refine ⟨f, _, hf, rfl, hread, fun hdepth => ?_⟩
  have hle := (depth_derivative_unsigned_le f).trans hdepth
  exact hread.trans (if_pos hle)

/-- The derivative of `x ^ 2`. -/
theorem parse_derivativeText_square : ∃ f d', parse "x ^ 2".toList = .ok f ∧
    d' = (f.derivative boundName).simplify.unsigned ∧
    parse "2 * x".toList = (if d'.depth ≤ maxDepth then .ok d' else .error .tooDeep) ∧
    (4 * f.depth ≤ maxDepth → parse "2 * x".toList = .ok d') :=
  parse_derivativeText "x ^ 2".toList "2 * x".toList (by decide +kernel)

/-! ## Repeated sums -/

/-- The sum `first + term + … + term`. -/
def repeatedSum (first term : Formula) : ℕ → Formula
  | 0 => first
  | n + 1 => .binary .add (repeatedSum first term n) term

section RepeatedSum

variable {first term first' term' : Formula} (n : ℕ)

theorem depth_repeatedSum (hterm : term.depth ≤ first.depth) : (repeatedSum first term n).depth = first.depth + n := by
  induction n with
  | zero => rfl
  | succ n ih =>
    rw [repeatedSum, depth, ih]
    exact congrArg (· + 1) (max_eq_left (hterm.trans (Nat.le_add_right first.depth n)))

theorem text_repeatedSum (hfirst : first.write 1 = first.text) :
    (repeatedSum first term n).text = first.text ++ (List.replicate n (" + ".toList ++ term.write 2)).flatten := by
  induction n with
  | zero => exact (List.append_nil _).symm
  | succ n ih =>
    have htext : (repeatedSum first term (n + 1)).text =
        (repeatedSum first term n).write 1 ++ " + ".toList ++ term.write 2 := rfl
    have hwrite : (repeatedSum first term n).write 1 = (repeatedSum first term n).text := by
      cases n with
      | zero => exact hfirst
      | succ n => rfl
    rw [htext, hwrite, ih, List.replicate_succ', List.flatten_append]
    simp

theorem allAtoms_repeatedSum {P : Atom Binary64 → Prop} (hfirst : first.AllAtoms P) (hterm : term.AllAtoms P) :
    (repeatedSum first term n).AllAtoms P := by
  induction n with
  | zero => exact hfirst
  | succ n ih => exact ⟨ih, hterm⟩

theorem unsigned_repeatedSum :
    (repeatedSum first term n).unsigned = repeatedSum first.unsigned term.unsigned n := by
  induction n with
  | zero => rfl
  | succ n ih => exact congrArg (Expr.binary .add · term.unsigned) ih

theorem hasFiniteNumbers_repeatedSum (hfirst : first.hasFiniteNumbers = true) (hterm : term.hasFiniteNumbers = true) :
    (repeatedSum first term n).hasFiniteNumbers = true := by
  induction n with
  | zero => exact hfirst
  | succ n ih => exact Bool.and_eq_true_iff.2 ⟨ih, hterm⟩

/-- A sum is derived term by term. Nothing is folded if the first derivative is no number, and nothing is left out if
the others are not zero. -/
theorem simplify_derivative_repeatedSum (hfirst : (first.derivative boundName).simplify = first')
    (hterm : (term.derivative boundName).simplify = term') (hnumber : first'.number? = none)
    (hzero' : term'.isNat 0 = false) :
    ((repeatedSum first term n).derivative boundName).simplify = repeatedSum first' term' n := by
  induction n with
  | zero => exact hfirst
  | succ n ih =>
    have hnone : (repeatedSum first' term' n).number? = none := by
      cases n with
      | zero => exact hnumber
      | succ n => rfl
    have hzero : (repeatedSum first' term' n).isNat 0 = false := by rw [isNat, hnone]
    have hcombined : ((repeatedSum first term (n + 1)).derivative boundName).simplify =
        combined .add (repeatedSum first' term' n) term' := congrArg₂ (combined .add) ih hterm
    rw [hcombined, combined, folded?, hnone]
    simp only [reduced, hzero, hzero']
    rfl

end RepeatedSum

/-! ## Derivatives that are too deep -/

/-- The formula `tan(x) + x + … + x`. -/
def tangentSum (n : ℕ) : Formula := repeatedSum (.call .tan x) x n

/-- The formula `1 / cos(x)^2`. -/
def tangentSlope : Formula := .binary .div (.number 1) (.binary .pow (.call .cos x) (.number 2))

/-- The formula `1 / cos(x)^2 + 1 + … + 1`. -/
def slopeSum (n : ℕ) : Formula := repeatedSum tangentSlope (.number 1) n

variable (n : ℕ)

theorem text_tangentSum : (tangentSum n).text = "tan(x)".toList ++ (List.replicate n " + x".toList).flatten :=
  text_repeatedSum n rfl

theorem text_slopeSum : (slopeSum n).text = "1 / cos(x)^2".toList ++ (List.replicate n " + 1".toList).flatten :=
  text_repeatedSum n rfl

/-- The sum is read as long as it is not too deep. -/
theorem parse_tangentSum (h : n + 2 ≤ maxDepth) : parse (tangentSum n).text = .ok (tangentSum n) := by
  have hatoms : (tangentSum n).AllAtoms fun a => a.Writable ∧ a.Unsigned :=
    allAtoms_repeatedSum n ⟨rfl, trivial⟩ ⟨rfl, trivial⟩
  have hdepth : (tangentSum n).depth = 2 + n := depth_repeatedSum n (by decide)
  rw [parse_unsigned hatoms, hdepth, if_pos (by omega)]

/-- The derivative of the sum has a text. -/
theorem derivativeText_tangentSum (h : n + 2 ≤ maxDepth) :
    Compute.derivativeText (tangentSum n).text = .ok (slopeSum n).text := by
  have hsimple : Libm.system.simpleDerivative (tangentSum n) = slopeSum n :=
    simplify_derivative_repeatedSum n rfl rfl rfl rfl
  rw [← Libm.derivativeText_system, Libm.derivativeText_eq_ok]
  refine ⟨tangentSum n, parse_tangentSum n h, ?_, ?_⟩ <;> rw [hsimple]
  exact hasFiniteNumbers_repeatedSum n rfl rfl

/-- It is two levels deeper than the sum, so that it is refused where the sum is at the limit. -/
theorem parse_slopeSum :
    parse (slopeSum n).text = if n + 4 ≤ maxDepth then .ok (slopeSum n) else .error .tooDeep := by
  have hatoms : (slopeSum n).AllAtoms Atom.Writable := allAtoms_repeatedSum n ⟨rfl, rfl, rfl⟩ rfl
  have hunsigned : (slopeSum n).unsigned = slopeSum n := unsigned_repeatedSum n
  have hdepth : (slopeSum n).depth = 4 + n := depth_repeatedSum n (by decide)
  rw [parse_of_writable hatoms, hunsigned, hdepth, Nat.add_comm]

/-- With 254 summands `x` the sum is read, its derivative has a text, and that text is refused. -/
theorem derivativeText_refused :
    Compute.derivativeText ("tan(x)".toList ++ (List.replicate 254 " + x".toList).flatten) =
        .ok ("1 / cos(x)^2".toList ++ (List.replicate 254 " + 1".toList).flatten) ∧
      ¬ ∃ f, parse ("1 / cos(x)^2".toList ++ (List.replicate 254 " + 1".toList).flatten) = .ok f := by
  rw [← text_tangentSum, ← text_slopeSum, parse_slopeSum, if_neg (by decide)]
  exact ⟨derivativeText_tangentSum 254 le_rfl, nofun⟩

end PocketCalc.Formula
