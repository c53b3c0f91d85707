import Mathlib
import PocketCalc.Proofs.Expr.Evaluation

/-!
# Formulas over the exact reals

* `Exact` — a real number, or no number at all; every operation is that of the reals, and `truncate` gives the
  remainder of a division its sign;
* `Function.real` — the function of real numbers that a function computes;
* `Expr.Defined`, `Expr.value` — whether a formula has a value where its variable is a real number, and which;
* `Defined.neg`, `Defined.call`, `Defined.binary` — a formula with a value gets it from the values of its parts,
  and `apply_add`, …, `apply_sqrt` say which value, and what the operands are then like.
-/

namespace PocketCalc

/-- A real number, or no number at all. -/
inductive Exact where
  | real (r : ℝ)
  | undefined

namespace Exact

/-- A function of real numbers. -/
def map (f : ℝ → ℝ) : Exact → Exact
  | real x => real (f x)
  | undefined => undefined

/-- A function of two real numbers. -/
def map₂ (f : ℝ → ℝ → ℝ) : Exact → Exact → Exact
  | real x, real y => real (f x y)
  | _, _ => undefined

/-- A relation between real numbers; it never holds of what is no number. -/
noncomputable def test (r : ℝ → ℝ → Prop) : Exact → Exact → Bool
  | real x, real y => @decide (r x y) (Classical.propDecidable _)
  | _, _ => false

/-- The whole number next to a real number on the side of zero. -/
noncomputable def truncate (x : ℝ) : ℤ := if 0 ≤ x then ⌊x⌋ else ⌈x⌉

/-- The factorial of a natural number. -/
noncomputable def factorial : Exact → Except EvalError Exact
  | real x => if x = ⌊x⌋₊ then .ok (real ⌊x⌋₊.factorial) else .error (.domain .notNatural)
  | undefined => .error (.domain .notNatural)

noncomputable instance : Arithmetic Exact where
  add := map₂ (· + ·)
  sub := map₂ (· - ·)
  mul := map₂ (· * ·)
  div := map₂ (· / ·)
  neg := map (- ·)
  ofNat n := real n
  pi := real Real.pi
  e := real (Real.exp 1)
  ln10 := real (Real.log 10)
  nan := undefined
  mod := map₂ fun x y => x - y * truncate (x / y)
  pow := map₂ (· ^ ·)
  sin := map Real.sin
  cos := map Real.cos
  tan := map Real.tan
  asin := map Real.arcsin
  acos := map Real.arccos
  atan := map Real.arctan
  log10 := map (Real.logb 10)
  ln := map Real.log
  exp := map Real.exp
  sqrt := map Real.sqrt
  factorial := factorial
  isNaN
    | real _ => false
    | undefined => true
  isInfinite _ := false
  isWhole
    | real x => @decide (∃ n : ℤ, x = n) (Classical.propDecidable _)
    | undefined => false
  eq := test (· = ·)
  lt := test (· < ·)
  le := test (· ≤ ·)

/-! ## Operations -/

section Operations

open Arithmetic

variable {x y v : ℝ}

theorem ok_real_inj : (Except.ok (real x) : Except EvalError Exact) = .ok (real v) ↔ v = x := by
  constructor
  · rintro ⟨⟩
    rfl
  · rintro rfl
    rfl

theorem test_real {r : ℝ → ℝ → Prop} : test r (real x) (real y) = true ↔ r x y := by simp [test]

theorem isWhole_real : Arithmetic.isWhole (real x) = true ↔ ∃ n : ℤ, x = n := by simp [Arithmetic.isWhole]

theorem eq_ofNat (n : ℕ) : Arithmetic.eq (real x) (Arithmetic.ofNat n) = true ↔ x = n := test_real

theorem lt_ofNat (n : ℕ) : Arithmetic.lt (real x) (Arithmetic.ofNat n) = true ↔ x < n := test_real

theorem le_ofNat (n : ℕ) : Arithmetic.le (real x) (Arithmetic.ofNat n) = true ↔ x ≤ n := test_real

theorem neg_ofNat_le (n : ℕ) : Arithmetic.le (-Arithmetic.ofNat n) (real x) = true ↔ -n ≤ x := test_real

/-- A condition that is refused is not met, if there is a value. -/
theorem ite_error_eq_ok {c : Prop} [Decidable c] {err : EvalError} {r : Except EvalError Exact} {u : Exact} :
    (if c then .error err else r) = .ok u ↔ ¬ c ∧ r = .ok u := by
  split <;> simp_all

theorem ite_ok_eq_ok {c : Prop} [Decidable c] {err : EvalError} {r : Except EvalError Exact} {u : Exact} :
    (if c then r else .error err) = .ok u ↔ c ∧ r = .ok u := by
  split <;> simp_all

theorem apply_add : Operator.add.apply (real x) (real y) = .ok (real v) ↔ v = x + y := ok_real_inj

theorem apply_sub : Operator.sub.apply (real x) (real y) = .ok (real v) ↔ v = x - y := ok_real_inj

theorem apply_mul : Operator.mul.apply (real x) (real y) = .ok (real v) ↔ v = x * y := ok_real_inj

theorem apply_div : Operator.div.apply (real x) (real y) = .ok (real v) ↔ y ≠ 0 ∧ v = x / y := by
  rw [Operator.apply, ite_error_eq_ok, eq_ofNat, Nat.cast_zero]
  exact and_congr_right fun _ => ok_real_inj

theorem apply_mod :
    Operator.mod.apply (real x) (real y) = .ok (real v) ↔ y ≠ 0 ∧ v = x - y * truncate (x / y) := by
  rw [Operator.apply, ite_error_eq_ok, eq_ofNat, Nat.cast_zero]
  exact and_congr_right fun _ => ok_real_inj

theorem apply_pow : Operator.pow.apply (real x) (real y) = .ok (real v) ↔
    (x < 0 → ∃ n : ℤ, y = n) ∧ (x = 0 → 0 ≤ y) ∧ v = x ^ y := by
  rw [Operator.apply, ite_error_eq_ok, ite_error_eq_ok]
  simp only [Bool.and_eq_true, Bool.not_eq_true', ← Bool.not_eq_true, lt_ofNat, eq_ofNat, isWhole_real,
    Nat.cast_zero, not_and, not_not, not_lt]
  exact and_congr_right fun _ => and_congr_right fun _ => ok_real_inj

theorem apply_sin : Function.sin.apply (real x) = .ok (real v) ↔ v = Real.sin x := ok_real_inj

theorem apply_cos : Function.cos.apply (real x) = .ok (real v) ↔ v = Real.cos x := ok_real_inj

theorem apply_tan : Function.tan.apply (real x) = .ok (real v) ↔ v = Real.tan x := ok_real_inj

theorem apply_atan : Function.atan.apply (real x) = .ok (real v) ↔ v = Real.arctan x := ok_real_inj

theorem apply_exp : Function.exp.apply (real x) = .ok (real v) ↔ v = Real.exp x := ok_real_inj

theorem apply_square : Function.square.apply (real x) = .ok (real v) ↔ v = x * x := ok_real_inj

theorem apply_cube : Function.cube.apply (real x) = .ok (real v) ↔ v = x * x * x := ok_real_inj

theorem inUnit_real : Function.apply.inUnit (real x) = true ↔ -1 ≤ x ∧ x ≤ 1 := by
  rw [Function.apply.inUnit, Bool.and_eq_true, neg_ofNat_le, le_ofNat, Nat.cast_one]

theorem apply_asin :
    Function.asin.apply (real x) = .ok (real v) ↔ (-1 ≤ x ∧ x ≤ 1) ∧ v = Real.arcsin x := by
  rw [Function.apply, ite_ok_eq_ok, inUnit_real]
  exact and_congr_right fun _ => ok_real_inj

theorem apply_acos :
    Function.acos.apply (real x) = .ok (real v) ↔ (-1 ≤ x ∧ x ≤ 1) ∧ v = Real.arccos x := by
  rw [Function.apply, ite_ok_eq_ok, inUnit_real]
  exact and_congr_right fun _ => ok_real_inj

theorem apply_ln : Function.ln.apply (real x) = .ok (real v) ↔ 0 < x ∧ v = Real.log x := by
  rw [Function.apply, ite_error_eq_ok, le_ofNat, Nat.cast_zero, not_le]
  exact and_congr_right fun _ => ok_real_inj

theorem apply_log10 : Function.log10.apply (real x) = .ok (real v) ↔ 0 < x ∧ v = Real.logb 10 x := by
  rw [Function.apply, ite_error_eq_ok, le_ofNat, Nat.cast_zero, not_le]
  exact and_congr_right fun _ => ok_real_inj

theorem apply_sqrt : Function.sqrt.apply (real x) = .ok (real v) ↔ 0 ≤ x ∧ v = Real.sqrt x := by
  rw [Function.apply, ite_error_eq_ok, lt_ofNat, Nat.cast_zero, not_lt]
  exact and_congr_right fun _ => ok_real_inj

/-- Operators make real numbers of real numbers. -/
theorem exists_real_of_operator {op : Operator} {u : Exact} (h : op.apply (real x) (real y) = .ok u) :
    ∃ v, u = real v := by
  cases op with
  | add | sub | mul => exact ⟨_, (Except.ok.inj h).symm⟩
  | div | mod => exact ⟨_, (Except.ok.inj (ite_error_eq_ok.1 h).2).symm⟩
  | pow => exact ⟨_, (Except.ok.inj (ite_error_eq_ok.1 (ite_error_eq_ok.1 h).2).2).symm⟩

/-- Functions make real numbers of real numbers. -/
theorem exists_real_of_function {f : Function} {u : Exact} (h : f.apply (real x) = .ok u) : ∃ v, u = real v := by
  cases f with
  | sin | cos | tan | atan | exp | square | cube => exact ⟨_, (Except.ok.inj h).symm⟩
  | asin | acos | factorial => exact ⟨_, (Except.ok.inj (ite_ok_eq_ok.1 h).2).symm⟩
  | log10 | ln | sqrt => exact ⟨_, (Except.ok.inj (ite_error_eq_ok.1 h).2).symm⟩

end Operations

end Exact

/-- The function of real numbers that a function computes; the factorial is left out. -/
noncomputable def Function.real : Function → ℝ → ℝ
  | .sin => Real.sin
  | .cos => Real.cos
  | .tan => Real.tan
  | .asin => Real.arcsin
  | .acos => Real.arccos
  | .atan => Real.arctan
  | .log10 => Real.logb 10
  | .ln => Real.log
  | .exp => Real.exp
  | .sqrt => Real.sqrt
  | .square => fun x => x * x
  | .cube => fun x => x * x * x
  | .factorial => fun _ => 0

/-! ## Formulas -/

namespace Expr

open Exact

variable {e a b : Expr Exact} {t : ℝ}

/-- The formula has a value where its variable is `t`. -/
def Defined (e : Expr Exact) (t : ℝ) : Prop := ∃ u, e.evaluate (some (real t)) = .ok u

/-- The value of the formula where its variable is `t`; zero where it has none. -/
noncomputable def value (e : Expr Exact) (t : ℝ) : ℝ :=
  match e.evaluate (some (real t)) with
  | .ok (.real v) => v
  | _ => 0

theorem value_of_evaluate {v : ℝ} (h : e.evaluate (some (real t)) = .ok (real v)) : e.value t = v := by
  rw [value, h]

/-- Every value is a real number. -/
theorem Defined.evaluate (h : e.Defined t) : e.evaluate (some (real t)) = .ok (real (e.value t)) := by
  obtain ⟨u, hu⟩ := h
  suffices ∃ v, u = real v by
    obtain ⟨v, rfl⟩ := this
    rw [value_of_evaluate hu, hu]
  induction e generalizing u with
  | atom a =>
    cases a with
    | number v =>
      cases v with
      | real r => exact ⟨r, (Except.ok.inj hu).symm⟩
      | undefined => cases hu
    | var name =>
      rw [Expr.evaluate, evaluateAtom] at hu
      exact ⟨t, (Except.ok.inj (ite_ok_eq_ok.1 hu).2).symm⟩
    | constant c => cases c <;> exact ⟨_, (Except.ok.inj hu).symm⟩
  | neg e ih =>
    obtain ⟨v, hv, rfl⟩ := evaluate_neg_eq_ok.1 hu
    obtain ⟨r, rfl⟩ := ih v hv
    exact ⟨-r, rfl⟩
  | call f e ih =>
    obtain ⟨v, hv, hf⟩ := evaluate_call_eq_ok.1 hu
    obtain ⟨r, rfl⟩ := ih v hv
    exact exists_real_of_function hf
  | binary op a b iha ihb =>
    obtain ⟨v, w, hv, hw, hop⟩ := evaluate_binary_eq_ok.1 hu
    obtain ⟨r, rfl⟩ := iha v hv
    obtain ⟨s, rfl⟩ := ihb w hw
    exact exists_real_of_operator hop

theorem Defined.neg (h : (neg e).Defined t) : e.Defined t ∧ (Expr.neg e).value t = -e.value t := by
  obtain ⟨u, hu⟩ := h
  obtain ⟨v, hv, rfl⟩ := evaluate_neg_eq_ok.1 hu
  have hd : e.Defined t := ⟨v, hv⟩
  rw [hd.evaluate] at hv
  cases hv
  exact ⟨hd, value_of_evaluate hu⟩

theorem Defined.call {f : Function} (h : (call f e).Defined t) :
    e.Defined t ∧ f.apply (real (e.value t)) = .ok (real ((Expr.call f e).value t)) := by
  have hu := h.evaluate
  obtain ⟨v, hv, hf⟩ := evaluate_call_eq_ok.1 hu
  have hd : e.Defined t := ⟨v, hv⟩
  rw [hd.evaluate] at hv
  cases hv
  exact ⟨hd, hf⟩

theorem Defined.binary {op : Operator} (h : (binary op a b).Defined t) : a.Defined t ∧ b.Defined t ∧
    op.apply (real (a.value t)) (real (b.value t)) = .ok (real ((Expr.binary op a b).value t)) := by
  have hu := h.evaluate
  obtain ⟨v, w, hv, hw, hop⟩ := evaluate_binary_eq_ok.1 hu
  have ha : a.Defined t := ⟨v, hv⟩
  have hb : b.Defined t := ⟨w, hw⟩
  rw [ha.evaluate] at hv
  rw [hb.evaluate] at hw
  cases hv
  cases hw
  exact ⟨ha, hb, hop⟩

theorem value_number (v t : ℝ) : (number (real v)).value t = v := rfl

/-- Without the variable the value is the same everywhere. -/
theorem value_congr (h : e.contains boundName = false) (s t : ℝ) : e.value s = e.value t := by
  unfold value
  rw [evaluate_congr h]

end Expr

end PocketCalc
