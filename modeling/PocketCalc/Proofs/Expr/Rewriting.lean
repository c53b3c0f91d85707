import PocketCalc.Expr.Derivative
import PocketCalc.Proofs.Expr.Finite
import PocketCalc.Proofs.Expr.NormalForm
import PocketCalc.Proofs.Expr.Unsigned

/-!
# Rewritings of formulas

* `KeepsValues` — a rewriting keeps the values of leaves, and of a whole whose parts keep theirs;
  `KeepsValues.evaluate` — so it keeps all values, up to the sign of a zero;
* `keepsValues_simplify`, `keepsValues_unsigned` — simplification is such a rewriting, and so is putting negations in
  the place of the minus signs of numbers;
* `contains_of_simplify`, `contains_of_derivative` — neither simplification nor differentiation brings in a variable.
-/

namespace PocketCalc

open Binary64 PocketCalc.Expr

/-! ## Values -/

section Values

variable {L : Libm} {x : Option L.Number} {e : Expr L.Number} {u v w : L.Number}

/-- A rewriting of formulas that keeps values, up to the sign of a zero, one operation at a time. -/
structure KeepsValues (x : Option L.Number) (rewriting : Expr L.Number → Expr L.Number) : Prop where
  atom : ∀ a v, evaluateAtom x a = .ok v → HasEqual ((rewriting (.atom a)).evaluate x) v
  neg : ∀ e v, HasEqual ((rewriting e).evaluate x) v → HasEqual ((rewriting (.neg e)).evaluate x) (-v)
  call : ∀ (f : Function) (e : Expr L.Number) v u, HasEqual ((rewriting e).evaluate x) v → f.apply v = .ok u →
    HasEqual ((rewriting (.call f e)).evaluate x) u
  binary : ∀ (op : Operator) (a b : Expr L.Number) v w u, HasEqual ((rewriting a).evaluate x) v →
    HasEqual ((rewriting b).evaluate x) w → op.apply v w = .ok u →
    HasEqual ((rewriting (.binary op a b)).evaluate x) u

variable {rewriting : Expr L.Number → Expr L.Number}

/-- A value that a formula has is equal to the one that the rewritten formula has. -/
theorem KeepsValues.evaluate (h : KeepsValues x rewriting) (he : e.evaluate x = .ok v) :
    HasEqual ((rewriting e).evaluate x) v := by
  induction e generalizing v with
  | atom a => exact h.atom a v he
  | neg e ih =>
    obtain ⟨w, hw, rfl⟩ := evaluate_neg_eq_ok.1 he
    exact h.neg e w (ih hw)
  | call f e ih =>
    obtain ⟨w, hw, hf⟩ := evaluate_call_eq_ok.1 he
    exact h.call f e w v (ih hw) hf
  | binary op a b iha ihb =>
    obtain ⟨w, z, hw, hz, hop⟩ := evaluate_binary_eq_ok.1 he
    exact h.binary op a b w z v (iha hw) (ihb hz) hop

/-- A value that is equal to one that is kept is kept as well. -/
theorem KeepsValues.hasEqual (h : KeepsValues x rewriting) (he : HasEqual (e.evaluate x) v) :
    HasEqual ((rewriting e).evaluate x) v := by
  obtain ⟨w, hw, heq⟩ := he
  exact (h.evaluate hw).of_agrees (Number.eq_iff.1 heq).1

/-- The value of a leaf is a number, so it is equal to itself. -/
theorem hasEqual_atom (hx : ∀ t, x = some t → Arithmetic.isFinite t = true) {a : Atom L.Number}
    (h : evaluateAtom x a = .ok v) : HasEqual ((Expr.atom a).evaluate x) v := by
  have hfinite := Number.isFinite_iff.1 (finite_of_atom hx h).1
  exact ⟨v, h, Number.eq_iff.2 ⟨.refl v, (isFinite_iff.1 hfinite).1⟩⟩

theorem keepsValues_simplify (hL : L.Lawful) (hx : ∀ t, x = some t → Arithmetic.isFinite t = true) :
    KeepsValues x Expr.simplify where
  atom _ _ h := hasEqual_atom hx h
  neg _ _ h := h.negated
  call _ _ _ _ h hf := h.call hL hf
  binary _ _ _ _ _ _ ha hb hop := ha.combined hL hb hop

/-- A number, and what is written for it. -/
theorem hasEqual_unsigned_number (h : evaluateAtom x (.number v) = .ok u) :
    HasEqual (Expr.evaluate x (unsigned (.number v) : Expr L.Number)) u := by
  obtain ⟨⟨hnan, hinf⟩, rfl⟩ := checked_eq_ok.1 h
  have hself : HasEqual (Expr.evaluate x (.number v)) v := ⟨v, h, Number.eq_iff.2 ⟨.refl v, hnan⟩⟩
  rcases finite_cases (isFinite_iff.2 ⟨hnan, hinf⟩) with ⟨s, hu⟩ | ⟨s, m, q, hm, hu⟩
  · have hzero : Arithmetic.checked (Arithmetic.ofNat 0 : L.Number) = .ok (Arithmetic.ofNat 0) := checked_ofNat_zero
    rw [unsigned_zero hu]
    exact ⟨Arithmetic.ofNat 0, hzero, eq_zero_of_zero hu⟩
  · cases s with
    | positive =>
      rw [unsigned_positive hu]
      exact hself
    | negative =>
      have hneg : Arithmetic.checked (-v : L.Number) = .ok (-v) :=
        checked_eq_ok.2 ⟨⟨(isNaN_neg v).trans hnan, (isInfinite_neg v).trans hinf⟩, rfl⟩
      rw [unsigned_negative hu]
      exact ⟨- -v, evaluate_neg_eq_ok.2 ⟨-v, hneg, rfl⟩, Number.eq_iff.2 ⟨(neg_neg_agrees v).symm, hnan⟩⟩

theorem keepsValues_unsigned (hL : L.Lawful) (hx : ∀ t, x = some t → Arithmetic.isFinite t = true) :
    KeepsValues x fun e => (unsigned e : Expr L.Number) where
  atom a v h := by
    cases a with
    | number w => exact hasEqual_unsigned_number h
    | var name => exact hasEqual_atom hx h
    | constant c => exact hasEqual_atom hx h
  neg _ _ h := h.neg
  call _ _ _ _ h hf := h.call hL hf
  binary _ _ _ _ _ _ ha hb hop := ha.binary hL hb hop

end Values

/-! ## Variables -/

namespace Expr

variable {α : Type} [Arithmetic α] {name other : Text} {e a b f df g dg outer : Expr α} {op : Operator}

theorem contains_of_negated (h : e.negated.contains name = true) : e.contains name = true := by
  unfold negated at h
  split at h
  · cases h
  · exact h
  · exact h

theorem contains_of_reduced (h : (reduced op a b).contains name = true) :
    a.contains name = true ∨ b.contains name = true := by
  rcases reduced_cases op a b with ⟨-, heq⟩ | heq | heq | heq | ⟨n, heq⟩
  · rw [heq] at h
    exact Bool.or_eq_true_iff.1 h
  · exact .inl (heq ▸ h)
  · exact .inr (heq ▸ h)
  · rw [heq] at h
    exact .inr (contains_of_negated h)
  · rw [heq] at h
    cases h

theorem contains_of_combined (h : (combined op a b).contains name = true) :
    a.contains name = true ∨ b.contains name = true := by
  unfold combined at h
  split at h
  · cases h
  · exact contains_of_reduced h

/-- **Simplification brings in no variable.** -/
theorem contains_of_simplify (h : e.simplify.contains name = true) : e.contains name = true := by
  induction e with
  | atom a => exact h
  | neg e ih => exact ih (contains_of_negated h)
  | call f e ih => exact ih h
  | binary op a b iha ihb => exact Bool.or_eq_true_iff.2 ((contains_of_combined h).imp iha ihb)

theorem contains_of_outer? {f : Function} (hf : f.outer? e = some outer) (h : outer.contains name = true) :
    e.contains name = true := by
  cases f <;> simp only [Function.outer?, Option.some.injEq, reduceCtorEq] at hf <;> subst hf <;>
    simpa [contains, inverse, squared] using h

theorem contains_of_lessOne (h : e.lessOne.contains name = true) : e.contains name = true := by
  unfold lessOne at h
  split at h
  · cases h
  · simpa [contains] using h

theorem contains_of_powerRule (h : (powerRule other f df g dg).contains name = true) :
    (f.contains name = true ∨ df.contains name = true) ∨ g.contains name = true ∨ dg.contains name = true := by
  unfold powerRule at h
  split at h
  · simp only [contains, Bool.or_eq_true] at h
    rcases h with (hg | hf | hg) | hdf
    · exact .inr (.inl hg)
    · exact .inl (.inl hf)
    · exact .inr (.inl (contains_of_lessOne hg))
    · exact .inl (.inr hdf)
  · split at h
    · simp only [contains, Bool.or_eq_true] at h
      tauto
    · simp only [contains, Bool.or_eq_true] at h
      tauto

/-- **Differentiation brings in no variable.** -/
theorem contains_of_derivative (h : (e.derivative other).contains name = true) : e.contains name = true := by
  induction e with
  | atom a => cases a <;> cases h
  | neg e ih => exact ih h
  | call f u ih =>
    simp only [derivative] at h
    split at h
    next outer houter =>
      have hu : outer.contains name = true → u.contains name = true := contains_of_outer? houter
      exact (Bool.or_eq_true_iff.1 h).elim hu ih
    next => split at h <;> cases h
  | binary op f g ihf ihg =>
    rw [contains, Bool.or_eq_true]
    cases op with
    | add | sub => exact (Bool.or_eq_true_iff.1 h).imp ihf ihg
    | mul =>
      simp only [derivative, contains, Bool.or_eq_true] at h
      tauto
    | div =>
      simp only [derivative, contains, squared, Bool.or_eq_true] at h
      tauto
    | pow =>
      exact (contains_of_powerRule h).imp (fun hf => hf.elim id ihf) fun hg => hg.elim id ihg
    | mod =>
      simp only [derivative] at h
      split at h
      · cases h
      · exact .inl (ihf h)

end Expr

end PocketCalc
