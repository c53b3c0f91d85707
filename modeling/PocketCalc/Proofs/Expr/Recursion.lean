import PocketCalc.Proofs.Expr.Depth
import PocketCalc.Proofs.Expr.NormalForm
import PocketCalc.Proofs.Expr.Rewriting

/-!
# Simplification as a recursion

Zero minus a formula is the negation of that formula, and the negation may be simplified again. It is no part of the
difference that was to be simplified, so it is not plain that a recursion that starts over with it comes to an end.

* `startsOver`, `simplifyWithin` — that recursion, with a bound on the calls inside one another;
* `IsSimple.simplifyWithin_eq` — on a simple formula it takes no more calls than the formula is deep;
* `simplifyWithin_eq` — on any other it takes one more at most, since it starts over on simple formulas only;
* `size_simplify_le` — simplification makes no formula larger;
* `simplify_terminates` — so the recursion ends, with a formula that is no larger and no deeper and has no variable
  that was not there.
-/

namespace PocketCalc.Expr

variable {α : Type} [Arithmetic α] {e a b : Expr α} {op : Operator} {n : ℕ}

/-- The operation is zero minus a formula: it has no result that can be computed, and its right operand is needed. -/
def startsOver (op : Operator) (a b : Expr α) : Bool :=
  op = .sub && (folded? op a b).isNone && !b.isNat 0 && a.isNat 0

/-- The simple form of a formula, found by a recursion with at most `n` calls inside one another; none if that takes
more of them. Where zero is left of a difference, the recursion starts over with the negation of the simple right
operand. -/
def simplifyWithin : ℕ → Expr α → Option (Expr α)
  | 0, _ => none
  | _ + 1, .atom a => some (.atom a)
  | n + 1, .neg e => (simplifyWithin n e).map negated
  | n + 1, .call f e => (simplifyWithin n e).map (.call f)
  | n + 1, .binary op a b => do
    let a ← simplifyWithin n a
    let b ← simplifyWithin n b
    if startsOver op a b then simplifyWithin n (.neg b) else some (combined op a b)

/-! ## The calls inside one another -/

/-- The negation with which the recursion starts over is what zero minus the formula is. -/
theorem combined_of_startsOver (h : startsOver op a b = true) : combined op a b = negated b := by
  simp only [startsOver, Bool.and_eq_true, decide_eq_true_eq, Option.isNone_iff_eq_none, Bool.not_eq_true'] at h
  obtain ⟨⟨⟨rfl, hfold⟩, hb⟩, ha⟩ := h
  simp only [combined, hfold, reduced, hb, ha, if_true, Bool.false_eq_true, if_false]

theorem startsOver_of_needs (h : Needs op a b) : startsOver op a b = false := by
  cases op with
  | sub =>
    have ha : a.isNat 0 = false := h.1 0 (List.mem_singleton_self 0)
    simp [startsOver, ha]
  | _ => rfl

theorem exists_succ_of_depth_le {β : Type} {e : Expr β} (hn : e.depth ≤ n) : ∃ k, n = k + 1 :=
  Nat.exists_eq_succ_of_ne_zero (Nat.ne_of_gt (Nat.lt_of_lt_of_le e.depth_pos hn))

/-- A simple formula takes no more calls inside one another than it is deep. -/
theorem IsSimple.simplifyWithin_eq (h : e.IsSimple) (hn : e.depth ≤ n) : simplifyWithin n e = some e := by
  induction h generalizing n with
  | atom a =>
    obtain ⟨n, rfl⟩ := exists_succ_of_depth_le hn
    rfl
  | neg h hnumber hneg ih =>
    obtain ⟨n, rfl⟩ := exists_succ_of_depth_le hn
    rw [simplifyWithin, ih (Nat.le_of_succ_le_succ hn), Option.map_some, negated_of_ne hnumber hneg]
  | call f h ih =>
    obtain ⟨n, rfl⟩ := exists_succ_of_depth_le hn
    rw [simplifyWithin, ih (Nat.le_of_succ_le_succ hn), Option.map_some]
  | @binary op a b ha hb hnumbers hneeds iha ihb =>
    obtain ⟨n, rfl⟩ := exists_succ_of_depth_le hn
    simp only [depth] at hn
    have ha' : simplifyWithin n a = some a := iha (by omega)
    have hb' : simplifyWithin n b = some b := ihb (by omega)
    simp only [simplifyWithin, ha', hb', Option.bind_eq_bind, Option.bind_some, startsOver_of_needs hneeds,
      Bool.false_eq_true, if_false, combined_of_needs hnumbers hneeds]

/-- Any formula takes one call more at most. -/
theorem simplifyWithin_eq (e : Expr α) (hn : e.depth < n) : simplifyWithin n e = some e.simplify := by
  induction e generalizing n with
  | atom a =>
    obtain ⟨n, rfl⟩ := exists_succ_of_depth_le (Nat.le_of_lt hn)
    rfl
  | neg e ih =>
    obtain ⟨n, rfl⟩ := exists_succ_of_depth_le (Nat.le_of_lt hn)
    rw [simplifyWithin, ih (Nat.lt_of_succ_lt_succ hn), Option.map_some, simplify]
  | call f e ih =>
    obtain ⟨n, rfl⟩ := exists_succ_of_depth_le (Nat.le_of_lt hn)
    rw [simplifyWithin, ih (Nat.lt_of_succ_lt_succ hn), Option.map_some, simplify]
  | binary op a b iha ihb =>
    obtain ⟨n, rfl⟩ := exists_succ_of_depth_le (Nat.le_of_lt hn)
    simp only [depth] at hn
    have ha : simplifyWithin n a = some a.simplify := iha (by omega)
    have hb : simplifyWithin n b = some b.simplify := ihb (by omega)
    simp only [simplifyWithin, ha, hb, Option.bind_eq_bind, Option.bind_some, simplify]
    split
    next hstart =>
      -- the right operand is simple by now and no deeper than it was, so the calls that are left are enough for it
      have hdepth : b.simplify.depth ≤ b.depth := depth_simplify_le b
      obtain ⟨n, rfl⟩ : ∃ k, n = k + 1 := exists_succ_of_depth_le (e := b) (by omega)
      have hsimple : simplifyWithin n b.simplify = some b.simplify :=
        (isSimple_simplify b).simplifyWithin_eq (by omega)
      rw [simplifyWithin, hsimple, Option.map_some, combined_of_startsOver hstart]
    next => rfl

/-! ## The number of nodes -/

theorem size_negated_le : e.negated.size ≤ e.size + 1 := by
  unfold negated
  split <;> simp only [size] <;> omega

theorem size_combined_le : (combined op a b).size ≤ a.size + b.size + 1 := by
  have hnegated : b.negated.size ≤ b.size + 1 := size_negated_le
  rcases combined_cases op a b with ⟨v, w, -, -, -, heq⟩ | ⟨-, heq⟩
  · rw [heq]
    simp only [size]
    omega
  · rw [heq]
    rcases reduced_cases op a b with ⟨-, heq⟩ | heq | heq | heq | ⟨n, heq⟩ <;> simp only [heq, size] <;> omega

/-- **Simplification makes no formula larger.** -/
theorem size_simplify_le (e : Expr α) : e.simplify.size ≤ e.size := by
  induction e with
  | atom a => exact le_rfl
  | neg e ih => exact size_negated_le.trans (Nat.succ_le_succ ih)
  | call f e ih => exact Nat.succ_le_succ ih
  | binary op a b iha ihb => exact size_combined_le.trans (Nat.succ_le_succ (Nat.add_le_add iha ihb))

/-- **Simplification terminates, and nothing grows.** The recursion that starts over with the negation of a simple
operand ends on every formula, with at most one call more inside one another than the formula is deep, and gives the
simple form. That has no more nodes than the formula, is no deeper, and has no variable that the formula has not. -/
theorem simplify_terminates (e : Expr α) :
    (∀ n, e.depth < n → simplifyWithin n e = some e.simplify) ∧ e.simplify.size ≤ e.size ∧
      e.simplify.depth ≤ e.depth ∧ ∀ name, e.simplify.contains name = true → e.contains name = true :=
  ⟨fun _ => simplifyWithin_eq e, size_simplify_le e, depth_simplify_le e, fun _ => contains_of_simplify⟩

/-- The difference `0 - x` is two nodes deep and takes three calls inside one another. -/
example : simplifyWithin 2 (.binary .sub (.number 0) x : Formula) = none ∧
    simplifyWithin 3 (.binary .sub (.number 0) x : Formula) = some (.neg x) := by
  decide +kernel

end PocketCalc.Expr
