import PocketCalc.Expr.Printer
import PocketCalc.Proofs.Numeral.Natural

/-!
# Formulas without minus signs in their numbers

* `AllAtoms p e` — every leaf of `e` has the property;
* `Atom.Writable` — the leaves that a text can hold: finite numbers, the variable and the constants;
* `Atom.Unsigned` — a leaf that is no number with a minus sign;
* `unsigned` — a formula with negations in the place of the minus signs of its numbers;
* `write_unsigned` — it has the same text.
-/

namespace PocketCalc

open Binary64 Float.Model Float.Model.UnpackedFloat

/-- A leaf that a text can hold: a finite number, the variable, or a constant. -/
def Atom.Writable : Atom Binary64 → Prop
  | .number v => v.isFinite = true
  | .var name => name = Expr.boundName
  | .constant _ => True

/-- A leaf that is no number with a minus sign. -/
def Atom.Unsigned : Atom Binary64 → Prop
  | .number v => v.sign = .positive
  | .var _ => True
  | .constant _ => True

namespace Expr

/-- Every leaf of the formula has the property. -/
def AllAtoms (p : Atom Binary64 → Prop) : Formula → Prop
  | .atom a => p a
  | .neg e => e.AllAtoms p
  | .call _ e => e.AllAtoms p
  | .binary _ a b => a.AllAtoms p ∧ b.AllAtoms p

/-- The formula with a negation for each minus sign of a number. A zero loses its sign. -/
def unsigned : Formula → Formula
  | .number v => if v.lt 0 then .neg (.number (-v)) else if v.eq 0 then .number 0 else .number v
  | .atom a => .atom a
  | .neg e => .neg e.unsigned
  | .call f e => .call f e.unsigned
  | .binary op a b => .binary op a.unsigned b.unsigned

variable {p q : Atom Binary64 → Prop} {e : Formula} {v : Binary64} {m : ℕ} {i : ℤ} {hm : 0 < m}

theorem AllAtoms.imp (h : ∀ a, p a → q a) (he : e.AllAtoms p) : e.AllAtoms q := by
  induction e with
  | atom a => exact h a he
  | neg e ih => exact ih he
  | call f e ih => exact ih he
  | binary op a b iha ihb => exact ⟨iha he.1, ihb he.2⟩

theorem isFinite_of_arithmetic (h : Arithmetic.isFinite v = true) : v.isFinite = true := by
  have hfinite : (!v.isNaN && !v.isInfinite) = true := h
  simp only [Bool.and_eq_true, Bool.not_eq_true'] at hfinite
  exact isFinite_iff.2 hfinite

/-- The formulas that have a text: the only variable is the bound one, and the numbers are finite. -/
theorem allAtoms_writable (hvar : ∀ name, e.contains name = true → name = boundName)
    (hnum : e.hasFiniteNumbers = true) : e.AllAtoms Atom.Writable := by
  induction e with
  | atom a =>
    cases a with
    | number v => exact isFinite_of_arithmetic hnum
    | var name => exact hvar name (decide_eq_true rfl)
    | constant c => exact trivial
  | neg e ih => exact ih hvar hnum
  | call f e ih => exact ih hvar hnum
  | binary op a b iha ihb =>
    simp only [contains, hasFiniteNumbers, Bool.or_eq_true, Bool.and_eq_true] at hvar hnum
    exact ⟨iha (fun name h => hvar name (.inl h)) hnum.1, ihb (fun name h => hvar name (.inr h)) hnum.2⟩

/-! ## Numbers -/

theorem unsigned_zero {s : Sign} (hu : v.unpacked = .zero s) : (number v).unsigned = number 0 := by
  rw [unsigned, lt_zero_of_zero hu, eq_zero_of_zero hu]
  rfl

theorem unsigned_negative (hu : v.unpacked = .finite .negative m i hm) :
    (number v).unsigned = .neg (number (-v)) := by
  rw [unsigned, lt_zero_of_negative hu]
  rfl

theorem unsigned_positive (hu : v.unpacked = .finite .positive m i hm) : (number v).unsigned = number v := by
  rw [unsigned, lt_zero_of_positive hu, eq_zero_of_finite hu]
  rfl

/-- Only a negative number is written like a negation. -/
theorem level_zero {s : Sign} (hu : v.unpacked = .zero s) : level (number v) = topLevel := by
  rw [level, eq_zero_of_zero hu, Bool.not_true, Bool.and_false]
  rfl

theorem level_positive (hu : v.unpacked = .finite .positive m i hm) : level (number v) = topLevel := by
  rw [level, isNegative_of_positive hu, Bool.false_and]
  rfl

theorem level_negative (hu : v.unpacked = .finite .negative m i hm) : level (number v) = negLevel := by
  rw [level, isNegative_of_negative hu, eq_zero_of_finite hu]
  rfl

/-! ## Formulas -/

/-- The text of a number is that of the number without minus sign, with a minus sign in front. -/
theorem write_unsigned_number (hv : v.isFinite = true) (asked : ℕ) :
    (number v).unsigned.write asked = (number v).write asked := by
  rcases finite_cases hv with ⟨s, hu⟩ | ⟨s, m, i, hm, hu⟩
  · have hzero : (0 : Binary64).unpacked = .zero .positive := unpacked_ofNat_zero
    rw [unsigned_zero hu]
    simp only [write, atomText]
    rw [level_zero hu, level_zero hzero, Numeral.natural_of_zero hu, Numeral.natural_of_zero hzero]
  · cases s with
    | positive => rw [unsigned_positive hu]
    | negative =>
      rw [unsigned_negative hu]
      simp only [write, atomText]
      rw [level_negative hu, level_positive (unpacked_neg_of_negative hu), Numeral.natural_neg hu]
      rfl

/-- **A formula without minus signs in its numbers has the same text.** -/
theorem write_unsigned (h : e.AllAtoms Atom.Writable) (asked : ℕ) : e.unsigned.write asked = e.write asked := by
  induction e generalizing asked with
  | atom a =>
    cases a with
    | number v => exact write_unsigned_number h asked
    | var name => rfl
    | constant c => rfl
  | neg e ih =>
    simp only [unsigned, write]
    rw [ih h]
  | call f e ih =>
    simp only [unsigned, write]
    rw [ih h]
  | binary op a b iha ihb =>
    cases op <;> simp only [unsigned, write] <;> rw [iha h.1, ihb h.2]

/-- The numbers of `unsigned` have no minus sign. -/
theorem allAtoms_unsigned (h : e.AllAtoms Atom.Writable) :
    e.unsigned.AllAtoms fun a => a.Writable ∧ a.Unsigned := by
  induction e with
  | atom a =>
    cases a with
    | number v =>
      rcases finite_cases h with ⟨s, hu⟩ | ⟨s, m, i, hm, hu⟩
      · rw [unsigned_zero hu]
        exact ⟨rfl, rfl⟩
      · cases s with
        | positive =>
          rw [unsigned_positive hu]
          exact ⟨h, (fields_of_finite hu).1⟩
        | negative =>
          have hneg := unpacked_neg_of_negative hu
          rw [unsigned_negative hu]
          refine ⟨?_, (fields_of_finite hneg).1⟩
          show (-v).isFinite = true
          rw [isFinite_eq, hneg]
          rfl
    | var name => exact ⟨h, trivial⟩
    | constant c => exact ⟨trivial, trivial⟩
  | neg e ih => exact ih h
  | call f e ih => exact ih h
  | binary op a b iha ihb => exact ⟨iha h.1, ihb h.2⟩

end Expr

end PocketCalc
