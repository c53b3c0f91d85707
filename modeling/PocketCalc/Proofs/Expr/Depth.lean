import PocketCalc.Expr.Derivative
import PocketCalc.Proofs.Expr.NormalForm
import PocketCalc.Proofs.Expr.Unsigned

/-!
# How deep rewritten formulas are

* `depth_simplify_le` — simplification makes no formula deeper;
* `depth_unsigned_le` — negations in the place of the minus signs of numbers make it deeper by one level at most;
* `depth_derivative_le` — the derivative is less than four times as deep: the powers with the variable in base and
  exponent put four levels around the derivatives of their parts, and all other rules fewer.
-/

namespace PocketCalc.Expr

section

variable {α : Type} [Arithmetic α] {name : Text} {a b e f df g dg outer : Expr α} {op : Operator}

/-! ## Simplification -/

theorem depth_negated_le : e.negated.depth ≤ e.depth + 1 := by
  unfold negated
  split <;> simp only [depth] <;> omega

theorem depth_reduced_le : (reduced op a b).depth ≤ max a.depth b.depth + 1 := by
  have hnegated : b.negated.depth ≤ b.depth + 1 := depth_negated_le
  rcases reduced_cases op a b with ⟨-, heq⟩ | heq | heq | heq | ⟨n, heq⟩ <;> simp only [heq, depth] <;> omega

theorem depth_combined_le : (combined op a b).depth ≤ max a.depth b.depth + 1 := by
  unfold combined
  split
  · simp only [depth]
    omega
  · exact depth_reduced_le

/-- **Simplification makes no formula deeper.** -/
theorem depth_simplify_le (e : Expr α) : e.simplify.depth ≤ e.depth := by
  induction e with
  | atom a => exact le_rfl
  | neg e ih => exact depth_negated_le.trans (Nat.succ_le_succ ih)
  | call f e ih => exact Nat.succ_le_succ ih
  | binary op a b iha ihb => exact depth_combined_le.trans (Nat.succ_le_succ (max_le_max iha ihb))

/-! ## Differentiation -/

theorem depth_outer?_le {f : Function} (hf : f.outer? e = some outer) : outer.depth ≤ e.depth + 5 := by
  have hpos := e.depth_pos
  cases f <;> simp only [Function.outer?, Option.some.injEq, reduceCtorEq] at hf <;> subst hf <;>
    simp only [inverse, squared, depth] <;> omega

theorem depth_lessOne_le : g.lessOne.depth ≤ g.depth + 1 := by
  have hpos := g.depth_pos
  unfold lessOne
  split <;> simp only [depth] <;> omega

theorem depth_powerRule_le :
    (powerRule name f df g dg).depth ≤ max (max f.depth g.depth) (max df.depth dg.depth) + 4 := by
  have hless : g.lessOne.depth ≤ g.depth + 1 := depth_lessOne_le
  unfold powerRule
  split
  · simp only [depth]
    omega
  · split <;> simp only [depth] <;> omega

/-- **The derivative is less than four times as deep.** -/
theorem depth_derivative_le (e : Expr α) : (e.derivative name).depth < 4 * e.depth := by
  induction e with
  | atom a => cases a <;> simp [derivative, depth]
  | neg e ih =>
    simp only [derivative, depth]
    omega
  | call f u ih =>
    have hpos := u.depth_pos
    simp only [derivative]
    split
    next outer houter =>
      have houter := depth_outer?_le houter
      simp only [depth]
      omega
    next => split <;> simp only [depth] <;> omega
  | binary op f g ihf ihg =>
    have hf := f.depth_pos
    have hg := g.depth_pos
    cases op with
    | add | sub | mul | div =>
      simp only [derivative, squared, depth]
      omega
    | pow =>
      have hpower : (powerRule name f (f.derivative name) g (g.derivative name)).depth ≤ _ := depth_powerRule_le
      simp only [derivative, depth]
      omega
    | mod =>
      simp only [derivative]
      split <;> simp only [depth] <;> omega

end

/-! ## Minus signs -/

/-- Negations in the place of minus signs make a formula deeper by one level at most. -/
theorem depth_unsigned_le (e : Formula) : e.unsigned.depth ≤ e.depth + 1 := by
  induction e with
  | atom a =>
    cases a with
    | number v =>
      simp only [unsigned]
      split
      · simp [depth]
      · split <;> simp [depth]
    | var name => simp [unsigned, depth]
    | constant c => simp [unsigned, depth]
  | neg e ih => exact Nat.succ_le_succ ih
  | call f e ih => exact Nat.succ_le_succ ih
  | binary op a b iha ihb =>
    simp only [unsigned, depth]
    omega

end PocketCalc.Expr
