import PocketCalc.Proofs.Binary64.Finite
import PocketCalc.Proofs.Expr.Simplify

/-!
# Values are finite

* `Libm.FiniteOnDomains` — what is assumed of a library;
* `Function.raw`, `Expr.raw` — what the operations give, with no regard to domains and to the size of results;
* `Function.of_apply`, `Operator.of_apply` — a value that is not refused is that result, and it is finite;
* `Expr.parts` — the formulas that a formula is made of; if it has a value, all of them have;
* `Expr.hasCalls` — a function is called, so that the library matters;
* `Expr.isFinite_evaluate` — values are finite, and a formula with a part that is not has none.
-/

namespace PocketCalc

open Binary64

/-- A library that gives finite numbers where nothing looks at its result: logarithms of positive finite numbers,
and inverse sines and cosines between minus one and one. -/
structure Libm.FiniteOnDomains (L : Libm) : Prop where
  logarithm : ∀ f ∈ [L.log10, L.ln], ∀ a : Binary64, a.isFinite = true → a.le (ofNat 0) = false →
    (f a).isFinite = true
  inverse : ∀ f ∈ [L.asin, L.acos], ∀ a : Binary64, (-ofNat 1).le a = true → a.le (ofNat 1) = true →
    (f a).isFinite = true

variable {L : Libm} {u v w : L.Number} {x : Option L.Number} {e s : Expr L.Number}

theorem Number.isFinite_iff : Arithmetic.isFinite v = true ↔ Binary64.isFinite v = true := by
  have hkinds := Binary64.isFinite_iff (a := v)
  rw [hkinds]
  show (!Binary64.isNaN v && !Binary64.isInfinite v) = true ↔ _
  simp only [Bool.and_eq_true, Bool.not_eq_true']

theorem Number.isFinite_neg : Arithmetic.isFinite (-v) = Arithmetic.isFinite v := by
  rw [Bool.eq_iff_iff, Number.isFinite_iff, Number.isFinite_iff]
  exact Bool.eq_iff_iff.1 (Binary64.isFinite_neg v)

theorem checked_eq_ok_iff : Arithmetic.checked v = .ok u ↔ v = u ∧ Arithmetic.isFinite u = true := by
  have hfinite : Arithmetic.isFinite u = true ↔ Binary64.isNaN u = false ∧ Binary64.isInfinite u = false :=
    Number.isFinite_iff.trans Binary64.isFinite_iff
  rw [checked_eq_ok, hfinite]
  constructor
  · rintro ⟨hkinds, rfl⟩
    exact ⟨rfl, hkinds⟩
  · rintro ⟨rfl, hkinds⟩
    exact ⟨hkinds, rfl⟩

theorem finite_of_checked (h : Arithmetic.checked v = .ok u) : Arithmetic.isFinite u = true ∧ u = v :=
  have ⟨hvalue, hfinite⟩ := checked_eq_ok_iff.1 h
  ⟨hfinite, hvalue.symm⟩

/-! ## One operation -/

/-- The result of a function, without regard to its domain; a factorial is the product, however large. -/
def Function.raw (f : Function) (v : L.Number) : L.Number :=
  match f with
  | .sin => Arithmetic.sin v
  | .cos => Arithmetic.cos v
  | .tan => Arithmetic.tan v
  | .asin => Arithmetic.asin v
  | .acos => Arithmetic.acos v
  | .atan => Arithmetic.atan v
  | .log10 => Arithmetic.log10 v
  | .ln => Arithmetic.ln v
  | .exp => Arithmetic.exp v
  | .sqrt => Arithmetic.sqrt v
  | .square => v * v
  | .cube => v * v * v
  | .factorial => Binary64.product 1 2 (Binary64.roundAbs v - 1)

section Functions

variable {f : Binary64 → Binary64} {err : EvalError}

theorem finite_of_logarithm (hL : L.FiniteOnDomains) (hf : f ∈ [L.log10, L.ln]) (hv : Arithmetic.isFinite v = true)
    (h : (if Arithmetic.le v (Arithmetic.ofNat 0) then .error err else .ok (f v)) = Except.ok u) :
    Arithmetic.isFinite u = true ∧ u = f v := by
  split at h
  · cases h
  next hle =>
    cases h
    have hpos : Binary64.le v (ofNat 0) = false := Bool.not_eq_true _ ▸ hle
    exact ⟨Number.isFinite_iff.2 (hL.logarithm f hf v (Number.isFinite_iff.1 hv) hpos), rfl⟩

theorem finite_of_inverse (hL : L.FiniteOnDomains) (hf : f ∈ [L.asin, L.acos])
    (h : (if Function.apply.inUnit v then .ok (f v) else .error err) = Except.ok u) :
    Arithmetic.isFinite u = true ∧ u = f v := by
  split at h
  next hin =>
    cases h
    obtain ⟨hlow, hhigh⟩ := Bool.and_eq_true_iff.1 hin
    exact ⟨Number.isFinite_iff.2 (hL.inverse f hf v hlow hhigh), rfl⟩
  · cases h

theorem finite_of_sqrt (hv : Arithmetic.isFinite v = true)
    (h : (if Arithmetic.lt v (Arithmetic.ofNat 0) then .error err else .ok (Arithmetic.sqrt v)) = Except.ok u) :
    Arithmetic.isFinite u = true ∧ u = Arithmetic.sqrt v := by
  split at h
  · cases h
  next hlt =>
    cases h
    have hpos : Binary64.lt v (ofNat 0) = false := Bool.not_eq_true _ ▸ hlt
    exact ⟨Number.isFinite_iff.2 (isFinite_sqrt (Number.isFinite_iff.1 hv) hpos), rfl⟩

/-- The value of a function at a finite number is its result, and finite. -/
theorem Function.of_apply (hL : L.FiniteOnDomains) {f : Function} (hv : Arithmetic.isFinite v = true)
    (h : f.apply v = .ok u) : Arithmetic.isFinite u = true ∧ u = f.raw v := by
  cases f with
  | asin => exact finite_of_inverse hL (f := L.asin) (by simp) h
  | acos => exact finite_of_inverse hL (f := L.acos) (by simp) h
  | log10 => exact finite_of_logarithm hL (f := L.log10) (by simp) hv h
  | ln => exact finite_of_logarithm hL (f := L.ln) (by simp) hv h
  | sqrt => exact finite_of_sqrt hv h
  | factorial =>
    exact ⟨Number.isFinite_iff.2 (isLarge_of_factorial h).isFinite, eq_product_of_factorial h⟩
  | sin | cos | tan | atan | exp | square | cube => exact finite_of_checked h

/-- The value of an operator is its result, and finite. -/
theorem Operator.of_apply {op : Operator} (h : op.apply v w = .ok u) :
    Arithmetic.isFinite u = true ∧ u = op.raw v w := finite_of_checked (checked_raw_of_apply h)

end Functions

/-! ## Formulas -/

namespace Expr

/-- What the operations of a formula give one after the other; nothing if a variable has no value. -/
def raw (x : Option L.Number) : Expr L.Number → Option L.Number
  | .number v => some v
  | .atom (.constant c) => some c.value
  | .atom (.var name) => if name = boundName then x else none
  | .neg e => (e.raw x).map (- ·)
  | .call f e => (e.raw x).map f.raw
  | .binary op a b => do return op.raw (← a.raw x) (← b.raw x)

/-- The formulas that a formula is made of, itself among them. -/
def parts {α : Type} : Expr α → List (Expr α)
  | .atom a => [.atom a]
  | .neg e => .neg e :: e.parts
  | .call f e => .call f e :: e.parts
  | .binary op a b => .binary op a b :: (a.parts ++ b.parts)

/-- A function is called somewhere in the formula. -/
def hasCalls {α : Type} : Expr α → Bool
  | .atom _ => false
  | .neg e => e.hasCalls
  | .call _ _ => true
  | .binary _ a b => a.hasCalls || b.hasCalls

theorem finite_of_atom {a : Atom L.Number} (hx : ∀ t, x = some t → Arithmetic.isFinite t = true)
    (h : evaluateAtom x a = .ok v) : Arithmetic.isFinite v = true ∧ raw x (.atom a) = some v := by
  cases a with
  | number t =>
    obtain ⟨hfinite, rfl⟩ := finite_of_checked h
    exact ⟨hfinite, rfl⟩
  | constant c =>
    cases h
    refine ⟨Number.isFinite_iff.2 ?_, rfl⟩
    cases c with
    | pi => exact show (Binary64.ofFloat (Float.ofBits 0x400921FB54442D18)).isFinite = true from rfl
    | e => exact show (Binary64.ofFloat (Float.ofBits 0x4005BF0A8B145769)).isFinite = true from rfl
  | var name =>
    cases x with
    | none => cases h
    | some t =>
      simp only [evaluateAtom] at h
      split at h
      next hname =>
        cases h
        exact ⟨hx v rfl, if_pos hname⟩
      · cases h

/-- The value of a formula is what its operations give, and finite; the library matters only if it is called. -/
theorem finite_of_evaluate (hL : e.hasCalls = true → L.FiniteOnDomains)
    (hx : ∀ t, x = some t → Arithmetic.isFinite t = true) (h : e.evaluate x = .ok v) :
    Arithmetic.isFinite v = true ∧ e.raw x = some v := by
  induction e generalizing v with
  | atom a => exact finite_of_atom hx h
  | neg e ih =>
    obtain ⟨w, hw, rfl⟩ := evaluate_neg_eq_ok.1 h
    obtain ⟨hfinite, hraw⟩ := ih hL hw
    exact ⟨Number.isFinite_neg.trans hfinite, by rw [raw, hraw]; rfl⟩
  | call f e ih =>
    obtain ⟨w, hw, hf⟩ := evaluate_call_eq_ok.1 h
    obtain ⟨hfinite, hraw⟩ := ih (fun _ => hL rfl) hw
    obtain ⟨hv, rfl⟩ := Function.of_apply (hL rfl) hfinite hf
    exact ⟨hv, by rw [raw, hraw]; rfl⟩
  | binary op a b iha ihb =>
    obtain ⟨w, z, hw, hz, hop⟩ := evaluate_binary_eq_ok.1 h
    obtain ⟨-, hraw⟩ := iha (fun ha => hL (by simp [hasCalls, ha])) hw
    obtain ⟨-, hraw'⟩ := ihb (fun hb => hL (by simp [hasCalls, hb])) hz
    obtain ⟨hv, rfl⟩ := Operator.of_apply hop
    exact ⟨hv, by rw [raw, hraw, hraw']; rfl⟩

/-- If a formula has a value, all of its parts have one. -/
theorem exists_of_mem_parts (hs : s ∈ e.parts) (h : e.evaluate x = .ok v) : ∃ w, s.evaluate x = .ok w := by
  induction e generalizing v with
  | atom a =>
    obtain rfl := List.mem_singleton.1 hs
    exact ⟨v, h⟩
  | neg e ih =>
    obtain ⟨w, hw, -⟩ := evaluate_neg_eq_ok.1 h
    rcases List.mem_cons.1 hs with rfl | hs
    · exact ⟨v, h⟩
    · exact ih hs hw
  | call f e ih =>
    obtain ⟨w, hw, -⟩ := evaluate_call_eq_ok.1 h
    rcases List.mem_cons.1 hs with rfl | hs
    · exact ⟨v, h⟩
    · exact ih hs hw
  | binary op a b iha ihb =>
    obtain ⟨w, z, hw, hz, -⟩ := evaluate_binary_eq_ok.1 h
    rcases List.mem_cons.1 hs with rfl | hs
    · exact ⟨v, h⟩
    · rcases List.mem_append.1 hs with hs | hs
      · exact iha hs hw
      · exact ihb hs hz

/-- **Values are finite.** Whatever numbers a formula has in it, and whatever finite number its variable may be bound
to: if it has a value, the value is finite. If the operations in any of its parts give something that is not finite,
the formula has no value but an error. -/
theorem isFinite_evaluate (hL : L.FiniteOnDomains) (e : Expr L.Number) (x : Option L.Number)
    (hx : ∀ t, x = some t → Arithmetic.isFinite t = true) :
    (∀ v, e.evaluate x = .ok v → Arithmetic.isFinite v = true) ∧
      ∀ s ∈ e.parts, ∀ w, s.raw x = some w → Arithmetic.isFinite w = false → ∃ err, e.evaluate x = .error err := by
  constructor
  · intro v hv
    exact (finite_of_evaluate (fun _ => hL) hx hv).1
  · intro s hs w hraw hinfinite
    rcases he : e.evaluate x with err | v
    · exact ⟨err, rfl⟩
    · obtain ⟨z, hz⟩ := exists_of_mem_parts hs he
      obtain ⟨hfinite, hraw'⟩ := finite_of_evaluate (fun _ => hL) hx hz
      rw [hraw'] at hraw
      cases hraw
      rw [hfinite] at hinfinite
      cases hinfinite

end Expr

/-! ## A library -/

theorem Libm.powers_finiteOnDomains : Libm.powers.FiniteOnDomains where
  logarithm f hf a _ _ := by
    have hconst : f = fun _ => 0 := by simpa [powers] using hf
    subst hconst
    exact show Binary64.isFinite 0 = true from rfl
  inverse f hf a _ _ := by
    have hconst : f = fun _ => 0 := by simpa [powers] using hf
    subst hconst
    exact show Binary64.isFinite 0 = true from rfl

/-- The formula `sqrt(4) - ln(x)`. -/
def rootExample : Expr Libm.powers.Number :=
  .binary .sub (.call .sqrt (.number (Arithmetic.ofNat 4))) (.call .ln Expr.x)

/-- The formula `x / (sqrt(4) - ln(x) - 2)`. -/
def poleExample : Expr Libm.powers.Number :=
  .binary .div Expr.x (.binary .sub rootExample (.number (Arithmetic.ofNat 2)))

/-- At one, the first formula has a finite value; the second one divides by zero, and its negation has no value. -/
theorem Expr.isFinite_evaluate_root :
    (∃ v, rootExample.evaluate (some (Arithmetic.ofNat 1)) = .ok v ∧ Arithmetic.isFinite v = true) ∧
      ∃ err, (neg poleExample).evaluate (some (Arithmetic.ofNat 1)) = .error err := by
  have hx : ∀ t : Libm.powers.Number, some (Arithmetic.ofNat 1) = some t → Arithmetic.isFinite t = true := by
    rintro t ⟨⟩
    decide +kernel
  constructor
  · have hroot : rootExample.evaluate (some (Arithmetic.ofNat 1)) = .ok (Arithmetic.ofNat 2) := by decide +kernel
    exact ⟨_, hroot, (isFinite_evaluate Libm.powers_finiteOnDomains rootExample _ hx).1 _ hroot⟩
  · have hpole : poleExample.raw (some (Arithmetic.ofNat 1)) = some (Arithmetic.ofNat 1 / Arithmetic.ofNat 0) := by
      decide +kernel
    exact (isFinite_evaluate Libm.powers_finiteOnDomains (neg poleExample) _ hx).2 poleExample
      (by simp [parts, poleExample]) _ hpole (by decide +kernel)

end PocketCalc
