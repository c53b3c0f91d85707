import PocketCalc.Expr.Simplify

/-!
# The normal form of simplification

* `Operator.leftNumbers`, `Operator.rightNumbers`, `Needs` — the numbers that a simple operation does not have as its
  operands, and an operation that has none of them;
* `IsSimple` — a formula with nothing left to compute or to leave out;
* `combined_cases`, `reduced_cases` — what can become of an operation;
* `isSimple_simplify` — the simple form of a formula is simple;
* `IsSimple.simplify_eq` — and a simple formula is its own simple form;
* `simplify_simplify` — so a second run changes nothing.
-/

namespace PocketCalc

open Arithmetic

/-- The numbers that a simple operation does not have on its left. -/
def Operator.leftNumbers : Operator → List Nat
  | .add | .sub => [0]
  | .mul => [0, 1]
  | .div | .pow | .mod => []

/-- The numbers that a simple operation does not have on its right. -/
def Operator.rightNumbers : Operator → List Nat
  | .add | .sub => [0]
  | .mul | .pow => [0, 1]
  | .div => [1]
  | .mod => []

namespace Expr

variable {α : Type} [Arithmetic α] {e a b : Expr α} {op : Operator} {u v w : α}

/-- The operation needs both operands: neither is a number that makes no difference to it, or all the difference. -/
def Needs (op : Operator) (a b : Expr α) : Prop :=
  (∀ n ∈ op.leftNumbers, a.isNat n = false) ∧ ∀ n ∈ op.rightNumbers, b.isNat n = false

/-- A formula with nothing left to simplify: nowhere in it is a number or a negation negated, are two numbers left whose
result is finite, or is there an operand that is not needed. -/
inductive IsSimple : Expr α → Prop
  | atom (a : Atom α) : IsSimple (.atom a)
  | neg {e : Expr α} (h : IsSimple e) (hnumber : ∀ v, e ≠ .number v) (hneg : ∀ e', e ≠ .neg e') : IsSimple (.neg e)
  | call (f : Function) {e : Expr α} (h : IsSimple e) : IsSimple (.call f e)
  | binary {op : Operator} {a b : Expr α} (ha : IsSimple a) (hb : IsSimple b)
      (hnumbers : ∀ v w, a = .number v → b = .number w → isFinite (op.raw v w) = false) (hneeds : Needs op a b) :
      IsSimple (.binary op a b)

/-! ## What can become of an operation -/

/-- Two numbers are computed if the result is finite. -/
theorem folded?_eq_some : folded? op a b = some u ↔
    ∃ v w, a = .number v ∧ b = .number w ∧ isFinite (op.raw v w) = true ∧ op.raw v w = u := by
  constructor
  · intro h
    unfold folded? at h
    split at h
    next v w hv hw =>
      split at h
      next hfinite => exact ⟨v, w, number?_eq_some.1 hv, number?_eq_some.1 hw, hfinite, Option.some.inj h⟩
      next => cases h
    next => cases h
  · rintro ⟨v, w, rfl, rfl, hfinite, rfl⟩
    exact if_pos hfinite

theorem folded?_eq_none :
    folded? op a b = none ↔ ∀ v w, a = .number v → b = .number w → isFinite (op.raw v w) = false := by
  constructor
  · intro h v w ha hb
    rw [← Bool.not_eq_true]
    intro hfinite
    rw [folded?_eq_some.2 ⟨v, w, ha, hb, hfinite, rfl⟩] at h
    cases h
  · intro h
    rw [Option.eq_none_iff_forall_ne_some]
    intro u hu
    obtain ⟨v, w, ha, hb, hfinite, -⟩ := folded?_eq_some.1 hu
    rw [h v w ha hb] at hfinite
    cases hfinite

/-- Two numbers are computed if the result is finite; anything else is reduced. -/
theorem combined_cases (op : Operator) (a b : Expr α) :
    (∃ v w, a = .number v ∧ b = .number w ∧ isFinite (op.raw v w) = true ∧
      combined op a b = .number (op.raw v w)) ∨ folded? op a b = none ∧ combined op a b = reduced op a b := by
  cases h : folded? op a b with
  | some u =>
    obtain ⟨v, w, ha, hb, hfinite, rfl⟩ := folded?_eq_some.1 h
    exact .inl ⟨v, w, ha, hb, hfinite, by rw [combined, h]⟩
  | none => exact .inr ⟨rfl, by rw [combined, h]⟩

/-- An operation that needs both operands keeps them. -/
theorem reduced_of_needs (h : Needs op a b) : reduced op a b = .binary op a b := by
  cases op <;> simp_all [Needs, Operator.leftNumbers, Operator.rightNumbers, reduced]

/-- Such an operation is simple if its result cannot be computed. -/
theorem combined_of_needs (hnumbers : ∀ v w, a = .number v → b = .number w → isFinite (op.raw v w) = false)
    (hneeds : Needs op a b) : combined op a b = .binary op a b := by
  rw [combined, folded?_eq_none.2 hnumbers]
  exact reduced_of_needs hneeds

/-- What is left of an operation: all of it if it needs both operands, or else one operand, the negation of the right
one, or a number. -/
theorem reduced_cases (op : Operator) (a b : Expr α) :
    (Needs op a b ∧ reduced op a b = .binary op a b) ∨ reduced op a b = a ∨ reduced op a b = b ∨
      reduced op a b = negated b ∨ ∃ n, reduced op a b = .number (ofNat n) := by
  cases op with
  | add =>
    rw [reduced]
    split
    next ha => exact .inr (.inr (.inl rfl))
    next ha =>
      split
      next hb => exact .inr (.inl rfl)
      next hb => exact .inl ⟨by simp [Needs, Operator.leftNumbers, Operator.rightNumbers, ha, hb], rfl⟩
  | sub =>
    rw [reduced]
    split
    next hb => exact .inr (.inl rfl)
    next hb =>
      split
      next ha => exact .inr (.inr (.inr (.inl rfl)))
      next ha => exact .inl ⟨by simp [Needs, Operator.leftNumbers, Operator.rightNumbers, ha, hb], rfl⟩
  | mul =>
    rw [reduced]
    split
    next hzero => exact .inr (.inr (.inr (.inr ⟨0, rfl⟩)))
    next hzero =>
      obtain ⟨ha0, hb0⟩ : a.isNat 0 = false ∧ b.isNat 0 = false := by simpa using hzero
      split
      next ha => exact .inr (.inr (.inl rfl))
      next ha =>
        split
        next hb => exact .inr (.inl rfl)
        next hb => exact .inl ⟨by simp [Needs, Operator.leftNumbers, Operator.rightNumbers, ha0, ha, hb0, hb], rfl⟩
  | div =>
    rw [reduced]
    split
    next hb => exact .inr (.inl rfl)
    next hb => exact .inl ⟨by simp [Needs, Operator.leftNumbers, Operator.rightNumbers, hb], rfl⟩
  | pow =>
    rw [reduced]
    split
    next hb => exact .inr (.inl rfl)
    next hb1 =>
      split
      next hb => exact .inr (.inr (.inr (.inr ⟨1, rfl⟩)))
      next hb0 => exact .inl ⟨by simp [Needs, Operator.leftNumbers, Operator.rightNumbers, hb0, hb1], rfl⟩
  | mod => exact .inl ⟨by simp [Needs, Operator.leftNumbers, Operator.rightNumbers], rfl⟩

/-! ## Simple forms are simple -/

theorem IsSimple.negated (h : e.IsSimple) : e.negated.IsSimple := by
  unfold Expr.negated
  split
  next v => exact .atom _
  next inner =>
    cases h with
    | neg h _ _ => exact h
  next hnumber hneg => exact .neg h hnumber hneg

theorem IsSimple.combined (ha : a.IsSimple) (hb : b.IsSimple) : (Expr.combined op a b).IsSimple := by
  rcases combined_cases op a b with ⟨v, w, -, -, -, heq⟩ | ⟨hfold, heq⟩
  · rw [heq]
    exact .atom _
  · rw [heq]
    rcases reduced_cases op a b with ⟨hneeds, heq⟩ | heq | heq | heq | ⟨n, heq⟩
    · rw [heq]
      exact .binary ha hb (folded?_eq_none.1 hfold) hneeds
    · rwa [heq]
    · rwa [heq]
    · rw [heq]
      exact hb.negated
    · rw [heq]
      exact .atom _

/-- **The simple form of a formula is simple.** -/
theorem isSimple_simplify (e : Expr α) : e.simplify.IsSimple := by
  induction e with
  | atom a => exact .atom a
  | neg e ih => exact ih.negated
  | call f e ih => exact .call f ih
  | binary op a b iha ihb => exact iha.combined ihb

/-! ## Simple formulas stay as they are -/

theorem negated_of_ne (hnumber : ∀ v, e ≠ .number v) (hneg : ∀ e', e ≠ .neg e') : e.negated = .neg e := by
  unfold negated
  split
  next v => exact absurd rfl (hnumber v)
  next inner => exact absurd rfl (hneg inner)
  next => rfl

/-- **A simple formula is its own simple form.** -/
theorem IsSimple.simplify_eq (h : e.IsSimple) : e.simplify = e := by
  induction h with
  | atom a => rfl
  | neg h hnumber hneg ih =>
    rw [simplify, ih]
    exact negated_of_ne hnumber hneg
  | call f h ih => rw [simplify, ih]
  | binary ha hb hnumbers hneeds iha ihb =>
    rw [simplify, iha, ihb]
    exact combined_of_needs hnumbers hneeds

/-- The simple formulas are those that simplification leaves as they are. -/
theorem simplify_eq_self_iff : e.simplify = e ↔ e.IsSimple := by
  constructor
  · intro h
    rw [← h]
    exact isSimple_simplify e
  · exact IsSimple.simplify_eq

/-- **Simplification reaches a normal form.** In the simple form of any formula, whatever numbers stand in it, no rule
applies any more, so that simplifying it again gives the same formula. -/
theorem simplify_simplify (e : Expr α) : e.simplify.IsSimple ∧ e.simplify.simplify = e.simplify := by
  have hsimple : e.simplify.IsSimple := isSimple_simplify e
  exact ⟨hsimple, hsimple.simplify_eq⟩

end Expr

end PocketCalc
