import PocketCalc.Expr.Derivative
import PocketCalc.Proofs.Expr.Finite
import PocketCalc.Proofs.Expr.Rewriting

/-!
# The derivative of a constant

The rules do not look whether there is something to differentiate: the derivative of a formula without variable is built
like any other, and has no value if one of its coefficients has none.

* `AllZero` — the only values that a computation may have are zeros; `allZero_derivative` — so it is with the derivative of
  a formula without variable;
* `coefficients` — what the rules multiply the derivatives of the parts by, and zero divided by what they divide by;
* `hasValue_derivative` — where a formula without variable has a value, its derivative has one exactly if all coefficients
  have one.
-/

namespace PocketCalc

open Binary64

/-! ## Zeros -/

namespace Binary64

open Float.Model Float.Model.UnpackedFloat

variable {a b : Binary64}

theorem eq_zero_of_agrees (h : a.Agrees b) (hb : b.eq (ofNat 0) = true) : a.eq (ofNat 0) = true := by
  rwa [h.eq (.refl _)]

theorem isNaN_of_eq_zero (h : a.eq (ofNat 0) = true) : a.isNaN = false := (eq_iff.1 h).2

theorem neg_of_zero (h : a.eq (ofNat 0) = true) : (-a).eq (ofNat 0) = true :=
  eq_iff.2 ⟨Agrees.trans (Agrees.neg (eq_iff.1 h).1) (Alike.zeros _ _), (isNaN_neg a).trans (isNaN_of_eq_zero h)⟩

/-- A zero times a finite number is a number. -/
theorem isNaN_zero_mul (ha : a.eq (ofNat 0) = true) (hb : b.isFinite = true) : (a * b).isNaN = false := by
  obtain ⟨s, hs⟩ := eq_ofNat_zero.1 ha
  have hproduct : (a * b).isNaN = (ofUnpacked (UnpackedFloat.mul Format.binary64 a.unpacked b.unpacked)).isNaN := rfl
  rw [hproduct, isNaN_ofUnpacked, hs]
  rcases finite_cases hb with ⟨t, ht⟩ | ⟨t, m, e, hm, ht⟩ <;> rw [ht] <;> rfl

theorem zero_mul_of_isFinite (ha : a.eq (ofNat 0) = true) (hb : b.isFinite = true) : (a * b).eq (ofNat 0) = true := by
  have hnan := isNaN_zero_mul ha hb
  exact eq_iff.2 ⟨zero_mul_agrees ha hnan, hnan⟩

theorem mul_zero_of_isFinite (ha : a.isFinite = true) (hb : b.eq (ofNat 0) = true) : (a * b).eq (ofNat 0) = true := by
  have hnan : (a * b).isNaN = false := by
    have hcomm : (a * b).isNaN = (b * a).isNaN :=
      congrArg (fun u => (ofUnpacked u).isNaN) (mul_comm a.unpacked b.unpacked)
    exact hcomm.trans (isNaN_zero_mul hb ha)
  exact eq_iff.2 ⟨mul_zero_agrees hb hnan, hnan⟩

theorem zero_div_agrees (ha : a.eq (ofNat 0) = true) (hnan : (a / b).isNaN = false) : (a / b).Agrees (ofNat 0) := by
  obtain ⟨s, hs⟩ := eq_ofNat_zero.1 ha
  have hquotient : (a / b).unpacked =
      (ofUnpacked (UnpackedFloat.div Format.binary64 (.zero s) b.unpacked)).unpacked := by
    rw [← hs]
    rfl
  have hnan' : UnpackedFloat.div Format.binary64 (.zero s) b.unpacked ≠ .notANumber := by
    intro h
    rw [isNaN_eq, hquotient, h, unpacked_ofUnpacked_notANumber] at hnan
    cases hnan
  rw [Agrees, hquotient, unpacked_ofNat_zero]
  generalize b.unpacked = v at *
  cases v with
  | notANumber => exact absurd rfl hnan'
  | zero t => exact absurd rfl hnan'
  | infinity t => exact agrees_ofUnpacked (.zeros _ .positive)
  | finite t m e hm => exact agrees_ofUnpacked (.zeros _ .positive)

end Binary64

namespace Expr

variable {L : Libm} {x : Option L.Number} {e a b u f g df dg : Expr L.Number} {v w z : L.Number} {name : Text}

/-- Every value that the computation may have is a zero. -/
def AllZero (r : Except EvalError L.Number) : Prop := ∀ z, r = .ok z → Arithmetic.eq z (Arithmetic.ofNat 0) = true

theorem checked_of_eq_zero (h : Arithmetic.eq v (Arithmetic.ofNat 0) = true) : Arithmetic.checked v = .ok v := by
  obtain ⟨s, hs⟩ := Binary64.eq_ofNat_zero.1 h
  exact checked_eq_ok.2 ⟨kinds_of_zero hs, rfl⟩

/-! ### Operations on computations with zeros only -/

theorem AllZero.neg (h : AllZero (e.evaluate x)) : AllZero ((Expr.neg e).evaluate x) := by
  intro z hz
  obtain ⟨w, hw, rfl⟩ := evaluate_neg_eq_ok.1 hz
  exact neg_of_zero (h w hw)

theorem AllZero.add (ha : AllZero (a.evaluate x)) (hb : AllZero (b.evaluate x)) :
    AllZero ((binary .add a b).evaluate x) := by
  intro z hz
  obtain ⟨v, w, hv, hw, hop⟩ := evaluate_binary_eq_ok.1 hz
  obtain ⟨-, rfl⟩ := checked_eq_ok.1 hop
  exact eq_zero_of_agrees (zero_add_agrees (ha v hv) w) (hb w hw)

theorem AllZero.sub (ha : AllZero (a.evaluate x)) (hb : AllZero (b.evaluate x)) :
    AllZero ((binary .sub a b).evaluate x) := by
  intro z hz
  obtain ⟨v, w, hv, hw, hop⟩ := evaluate_binary_eq_ok.1 hz
  obtain ⟨-, rfl⟩ := checked_eq_ok.1 hop
  exact eq_zero_of_agrees (sub_zero_agrees v (hb w hw)) (ha v hv)

theorem AllZero.mul_left (ha : AllZero (a.evaluate x)) : AllZero ((binary .mul a b).evaluate x) := by
  intro z hz
  obtain ⟨v, w, hv, hw, hop⟩ := evaluate_binary_eq_ok.1 hz
  obtain ⟨⟨hnan, -⟩, rfl⟩ := checked_eq_ok.1 hop
  exact Number.eq_iff.2 ⟨zero_mul_agrees (ha v hv) hnan, hnan⟩

theorem AllZero.mul_right (hb : AllZero (b.evaluate x)) : AllZero ((binary .mul a b).evaluate x) := by
  intro z hz
  obtain ⟨v, w, hv, hw, hop⟩ := evaluate_binary_eq_ok.1 hz
  obtain ⟨⟨hnan, -⟩, rfl⟩ := checked_eq_ok.1 hop
  exact Number.eq_iff.2 ⟨mul_zero_agrees (hb w hw) hnan, hnan⟩

theorem AllZero.div (ha : AllZero (a.evaluate x)) : AllZero ((binary .div a b).evaluate x) := by
  intro z hz
  obtain ⟨v, w, hv, hw, hop⟩ := evaluate_binary_eq_ok.1 hz
  rw [Operator.apply] at hop
  split at hop
  · cases hop
  · obtain ⟨⟨hnan, -⟩, rfl⟩ := checked_eq_ok.1 hop
    exact Number.eq_iff.2 ⟨zero_div_agrees (ha v hv) hnan, hnan⟩

/-! ### When they have a value -/

/-- The computation has a value. -/
def HasValue (r : Except EvalError L.Number) : Prop := ∃ z, r = .ok z

/-- Every value that the computation may have is finite. -/
def AllFinite (r : Except EvalError L.Number) : Prop := ∀ z, r = .ok z → Arithmetic.isFinite z = true

theorem allFinite_evaluate (hL : L.FiniteOnDomains) (e : Expr L.Number) : AllFinite (e.evaluate none) :=
  fun _ hz => (finite_of_evaluate (fun _ => hL) (by rintro t ⟨⟩) hz).1

theorem hasValue_neg : HasValue ((neg e).evaluate x) ↔ HasValue (e.evaluate x) := by
  constructor
  · rintro ⟨z, hz⟩
    obtain ⟨w, hw, -⟩ := evaluate_neg_eq_ok.1 hz
    exact ⟨w, hw⟩
  · rintro ⟨w, hw⟩
    exact ⟨-w, evaluate_neg_eq_ok.2 ⟨w, hw, rfl⟩⟩

/-- An operation that is never refused has a value exactly if its operands have. -/
theorem hasValue_binary {op : Operator}
    (h : ∀ v w, a.evaluate x = .ok v → b.evaluate x = .ok w → HasValue (op.apply v w)) :
    HasValue ((binary op a b).evaluate x) ↔ HasValue (a.evaluate x) ∧ HasValue (b.evaluate x) := by
  constructor
  · rintro ⟨z, hz⟩
    obtain ⟨v, w, hv, hw, -⟩ := evaluate_binary_eq_ok.1 hz
    exact ⟨⟨v, hv⟩, w, hw⟩
  · rintro ⟨⟨v, hv⟩, w, hw⟩
    obtain ⟨z, hz⟩ := h v w hv hw
    exact ⟨z, evaluate_binary_eq_ok.2 ⟨v, w, hv, hw, hz⟩⟩

theorem hasValue_add (ha : AllZero (a.evaluate x)) (hb : AllZero (b.evaluate x)) :
    HasValue ((binary .add a b).evaluate x) ↔ HasValue (a.evaluate x) ∧ HasValue (b.evaluate x) :=
  hasValue_binary fun v w hv hw =>
    ⟨v + w, checked_of_eq_zero (eq_zero_of_agrees (zero_add_agrees (ha v hv) w) (hb w hw))⟩

theorem hasValue_sub (ha : AllZero (a.evaluate x)) (hb : AllZero (b.evaluate x)) :
    HasValue ((binary .sub a b).evaluate x) ↔ HasValue (a.evaluate x) ∧ HasValue (b.evaluate x) :=
  hasValue_binary fun v w hv hw =>
    ⟨v - w, checked_of_eq_zero (eq_zero_of_agrees (sub_zero_agrees v (hb w hw)) (ha v hv))⟩

theorem hasValue_mul_left (ha : AllZero (a.evaluate x)) (hb : AllFinite (b.evaluate x)) :
    HasValue ((binary .mul a b).evaluate x) ↔ HasValue (a.evaluate x) ∧ HasValue (b.evaluate x) :=
  hasValue_binary fun v w hv hw =>
    ⟨v * w, checked_of_eq_zero (zero_mul_of_isFinite (ha v hv) (Number.isFinite_iff.1 (hb w hw)))⟩

theorem hasValue_mul_right (ha : AllFinite (a.evaluate x)) (hb : AllZero (b.evaluate x)) :
    HasValue ((binary .mul a b).evaluate x) ↔ HasValue (a.evaluate x) ∧ HasValue (b.evaluate x) :=
  hasValue_binary fun v w hv hw =>
    ⟨v * w, checked_of_eq_zero (mul_zero_of_isFinite (Number.isFinite_iff.1 (ha v hv)) (hb w hw))⟩

theorem hasValue_checked : HasValue (Arithmetic.checked v) ↔ Arithmetic.isFinite v = true := by
  constructor
  · rintro ⟨z, hz⟩
    obtain ⟨rfl, hfinite⟩ := checked_eq_ok_iff.1 hz
    exact hfinite
  · exact fun hfinite => ⟨v, checked_eq_ok_iff.2 ⟨rfl, hfinite⟩⟩

/-- Whether a zero can be divided does not depend on its sign. -/
theorem hasValue_apply_div (hv : Arithmetic.eq v (Arithmetic.ofNat 0) = true) :
    HasValue (Operator.div.apply v w) ↔ HasValue (Operator.div.apply (Arithmetic.ofNat 0) w) := by
  rw [Operator.apply, Operator.apply]
  split
  · exact Iff.rfl
  next hne =>
    have hagree : Agrees (v / w) ((Arithmetic.ofNat 0 : L.Number) / w) :=
      Agrees.div (Number.eq_iff.1 hv).1 (.refl w) (Bool.not_eq_true _ ▸ hne)
    rw [hasValue_checked, hasValue_checked, Number.isFinite_iff, Number.isFinite_iff, hagree.isFinite]

theorem hasValue_div (ha : AllZero (a.evaluate x)) : HasValue ((binary .div a b).evaluate x) ↔
    HasValue (a.evaluate x) ∧ HasValue ((binary .div (number (Arithmetic.ofNat 0)) b).evaluate x) := by
  constructor
  · rintro ⟨z, hz⟩
    obtain ⟨v, w, hv, hw, hop⟩ := evaluate_binary_eq_ok.1 hz
    obtain ⟨z', hop'⟩ := (hasValue_apply_div (ha v hv)).1 ⟨z, hop⟩
    exact ⟨⟨v, hv⟩, z', evaluate_binary_eq_ok.2 ⟨_, w, checked_ofNat_zero, hw, hop'⟩⟩
  · rintro ⟨⟨v, hv⟩, z, hz⟩
    obtain ⟨v', w, hv', hw, hop⟩ := evaluate_binary_eq_ok.1 hz
    obtain rfl : Arithmetic.ofNat 0 = v' := (checked_eq_ok.1 hv').2
    obtain ⟨z', hop'⟩ := (hasValue_apply_div (ha v hv)).2 ⟨z, hop⟩
    exact ⟨z', evaluate_binary_eq_ok.2 ⟨v, w, hv, hw, hop'⟩⟩

/-! ## The rules -/

theorem contains_eq_false_of_evaluate (h : e.evaluate none = .ok v) : e.contains name = false := by
  induction e generalizing v with
  | atom a =>
    cases a with
    | number w => rfl
    | constant c => rfl
    | var n => cases h
  | neg e ih =>
    obtain ⟨w, hw, -⟩ := evaluate_neg_eq_ok.1 h
    exact ih hw
  | call f e ih =>
    obtain ⟨w, hw, -⟩ := evaluate_call_eq_ok.1 h
    exact ih hw
  | binary op a b iha ihb =>
    obtain ⟨w, z, hw, hz, -⟩ := evaluate_binary_eq_ok.1 h
    exact Bool.or_eq_false_iff.2 ⟨iha hw, ihb hz⟩

theorem allZero_zero : AllZero ((number (Arithmetic.ofNat 0) : Expr L.Number).evaluate x) := by
  intro z hz
  obtain ⟨-, rfl⟩ := checked_eq_ok.1 hz
  exact Binary64.eq_ofNat_zero.2 ⟨_, unpacked_ofNat_zero⟩

theorem hasValue_zero : HasValue ((number (Arithmetic.ofNat 0) : Expr L.Number).evaluate x) := ⟨_, checked_ofNat_zero⟩

theorem derivative_atom_of_constant {l : Atom L.Number} (h : (atom l).contains name = false) :
    (atom l).derivative name = .number (Arithmetic.ofNat 0) := by
  cases l with
  | number v => rfl
  | constant c => rfl
  | var n =>
    have hn : n ≠ name := of_decide_eq_false h
    rw [derivative, if_neg hn]

theorem derivative_call_of_some {f : Function} {outer : Expr L.Number} (h : f.outer? u = some outer) :
    (call f u).derivative name = .binary .mul outer (u.derivative name) := by
  rw [derivative, h]

theorem derivative_call_of_none {f : Function} (h : f.outer? u = none) (hu : u.contains name = false) :
    (call f u).derivative name = .number (Arithmetic.ofNat 0) := by
  rw [derivative, h]
  simp only [hu]
  rfl

theorem derivative_pow_of_constant (h : g.contains name = false) :
    (binary .pow f g).derivative name = .binary .mul (.binary .mul g (.binary .pow f g.lessOne)) (f.derivative name) := by
  rw [derivative, powerRule, if_pos (by simp [h])]

theorem derivative_mod_of_constant (h : g.contains name = false) :
    (binary .mod f g).derivative name = f.derivative name := by
  rw [derivative, if_neg (by simp [h])]

/-- Where the derivative of a formula without the variable has a value, the value is zero. -/
theorem allZero_derivative (h : e.contains name = false) : AllZero ((e.derivative name).evaluate x) := by
  induction e with
  | atom l =>
    rw [derivative_atom_of_constant h]
    exact allZero_zero
  | neg e ih => exact (ih h).neg
  | call f u ih =>
    cases houter : f.outer? u with
    | some outer =>
      rw [derivative_call_of_some houter]
      exact (ih h).mul_right
    | none =>
      rw [derivative_call_of_none houter h]
      exact allZero_zero
  | binary op f g ihf ihg =>
    obtain ⟨hf, hg⟩ : f.contains name = false ∧ g.contains name = false := Bool.or_eq_false_iff.1 h
    have hdf := ihf hf
    have hdg := ihg hg
    cases op with
    | add => exact hdf.add hdg
    | sub => exact hdf.sub hdg
    | mul => exact hdf.mul_left.add hdg.mul_right
    | div => exact (hdf.mul_left.sub hdg.mul_right).div
    | pow =>
      rw [derivative_pow_of_constant hg]
      exact hdf.mul_right
    | mod =>
      rw [derivative_mod_of_constant hg]
      exact hdf

/-- What the rules multiply the derivatives of the parts by where there is no variable, and what becomes of zero where
they divide: the derivatives of the functions, the factors of powers, and zero divided by the squares of divisors. -/
def coefficients {α : Type} [Arithmetic α] : Expr α → List (Expr α)
  | .atom _ => []
  | .neg e => e.coefficients
  | .call f u =>
    match f.outer? u with
    | some outer => outer :: u.coefficients
    | none => []
  | .binary .add f g | .binary .sub f g | .binary .mul f g => f.coefficients ++ g.coefficients
  | .binary .div f g => .binary .div (.number (Arithmetic.ofNat 0)) g.squared :: (f.coefficients ++ g.coefficients)
  | .binary .pow f g => .binary .mul g (.binary .pow f g.lessOne) :: f.coefficients
  | .binary .mod f _ => f.coefficients

/-- Where a formula without variable has a value, its derivative has one exactly if all coefficients have one. -/
theorem hasValue_derivative (hL : L.FiniteOnDomains) (hv : HasValue (e.evaluate none)) :
    HasValue ((e.derivative name).evaluate none) ↔ ∀ c ∈ e.coefficients, HasValue (c.evaluate none) := by
  obtain ⟨v, hv⟩ := hv
  induction e generalizing v with
  | atom l =>
    rw [derivative_atom_of_constant (contains_eq_false_of_evaluate hv), coefficients]
    exact ⟨fun _ => List.forall_mem_nil _, fun _ => hasValue_zero⟩
  | neg e ih =>
    obtain ⟨w, hw, -⟩ := evaluate_neg_eq_ok.1 hv
    exact hasValue_neg.trans (ih w hw)
  | call f u ih =>
    obtain ⟨w, hw, -⟩ := evaluate_call_eq_ok.1 hv
    have hu : u.contains name = false := contains_eq_false_of_evaluate hw
    rw [coefficients]
    cases houter : f.outer? u with
    | some outer =>
      rw [derivative_call_of_some houter, hasValue_mul_right (allFinite_evaluate hL outer) (allZero_derivative hu),
        ih w hw, List.forall_mem_cons]
    | none =>
      rw [derivative_call_of_none houter hu]
      exact ⟨fun _ => List.forall_mem_nil _, fun _ => hasValue_zero⟩
  | binary op f g ihf ihg =>
    obtain ⟨w, w', hw, hw', -⟩ := evaluate_binary_eq_ok.1 hv
    have ihf := ihf w hw
    have ihg := ihg w' hw'
    have hf : AllZero ((f.derivative name).evaluate none) := allZero_derivative (contains_eq_false_of_evaluate hw)
    have hg : AllZero ((g.derivative name).evaluate none) := allZero_derivative (contains_eq_false_of_evaluate hw')
    have hleft : HasValue ((binary .mul (f.derivative name) g).evaluate none) ↔
        HasValue ((f.derivative name).evaluate none) := by
      rw [hasValue_mul_left hf (allFinite_evaluate hL g)]
      exact and_iff_left ⟨w', hw'⟩
    have hright : HasValue ((binary .mul f (g.derivative name)).evaluate none) ↔
        HasValue ((g.derivative name).evaluate none) := by
      rw [hasValue_mul_right (allFinite_evaluate hL f) hg]
      exact and_iff_right ⟨w, hw⟩
    cases op with
    | add => rw [coefficients, List.forall_mem_append, ← ihf, ← ihg, derivative, hasValue_add hf hg]
    | sub => rw [coefficients, List.forall_mem_append, ← ihf, ← ihg, derivative, hasValue_sub hf hg]
    | mul =>
      rw [coefficients, List.forall_mem_append, ← ihf, ← ihg, derivative, hasValue_add hf.mul_left hg.mul_right, hleft,
        hright]
    | div =>
      rw [coefficients, List.forall_mem_cons, List.forall_mem_append, ← ihf, ← ihg, derivative,
        hasValue_div (hf.mul_left.sub hg.mul_right), hasValue_sub hf.mul_left hg.mul_right, hleft, hright, and_comm]
    | pow =>
      rw [derivative_pow_of_constant (contains_eq_false_of_evaluate hw'), coefficients, List.forall_mem_cons, ← ihf,
        hasValue_mul_right (allFinite_evaluate hL _) hf]
    | mod => rw [derivative_mod_of_constant (contains_eq_false_of_evaluate hw'), coefficients, ← ihf]

/-- **The derivative of a constant.** If a formula has a value without a value for its variable, its derivative has no
values but zeros, at any point; and it has a value exactly if every coefficient of the rules has one. -/
theorem derivativeAt_constant (hL : L.FiniteOnDomains) (e : Expr L.Number) (v p : L.Number)
    (hv : e.evaluate none = .ok v) :
    (∀ z, e.derivativeAt p = .ok z → Arithmetic.eq z (Arithmetic.ofNat 0) = true) ∧
      ((∃ z, e.derivativeAt p = .ok z) ↔ ∀ c ∈ e.coefficients, ∃ w, c.evaluate none = .ok w) := by
  have hconstant : e.contains boundName = false := contains_eq_false_of_evaluate hv
  refine ⟨allZero_derivative hconstant, ?_⟩
  have hderivative : (e.derivative boundName).contains boundName = false := by
    refine Bool.eq_false_iff.2 fun hc => ?_
    rw [contains_of_derivative hc] at hconstant
    cases hconstant
  rw [derivativeAt, evaluate_congr (y := none) hderivative]
  exact hasValue_derivative hL ⟨v, hv⟩

/-- The formula `3 * sqrt(4)`. -/
def constantExample : Expr Libm.powers.Number :=
  .binary .mul (.number (Arithmetic.ofNat 3)) (.call .sqrt (.number (Arithmetic.ofNat 4)))

/-- The derivative of that formula has a value at one, since `1 / (2 * sqrt(4))` has a value. -/
theorem derivativeAt_constant_root :
    ∃ z, constantExample.derivativeAt (Arithmetic.ofNat 1) = .ok z ∧ Arithmetic.eq z (Arithmetic.ofNat 0) = true := by
  have h := derivativeAt_constant Libm.powers_finiteOnDomains constantExample (Arithmetic.ofNat 6) (Arithmetic.ofNat 1)
    (by decide +kernel)
  have hcoefficients : ∀ c ∈ constantExample.coefficients, ∃ w, c.evaluate none = .ok w := by
    intro c hc
    obtain rfl := List.mem_singleton.1 hc
    exact ⟨Arithmetic.ofNat 1 / Arithmetic.ofNat 4, by decide +kernel⟩
  obtain ⟨z, hz⟩ := h.2.2 hcoefficients
  exact ⟨z, hz, h.1 z hz⟩

/-- The derivative of `sqrt(0)` has no value: the rule divides by twice the root. -/
theorem derivativeAt_root_of_zero :
    (call .sqrt (number 0) : Formula).evaluate none = .ok 0 ∧
      (call .sqrt (number 0) : Formula).derivativeAt 1 = .error .divisionByZero := by
  decide +kernel

end Expr

end PocketCalc
