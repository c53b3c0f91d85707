import PocketCalc.Expr.Evaluate
import PocketCalc.Proofs.Outcome

/-!
# When a formula has a value

* `evaluate_neg_eq_ok`, `evaluate_call_eq_ok`, `evaluate_binary_eq_ok` — a formula has a value exactly if its parts
  have values to which its operation applies;
* `evaluate_congr` — a formula without the variable has the same value whatever the variable is bound to.
-/

namespace PocketCalc.Expr

variable {α : Type} [Arithmetic α] {x y : Option α} {e a b : Expr α} {u : α}

theorem evaluate_neg_eq_ok : (neg e).evaluate x = .ok u ↔ ∃ v, e.evaluate x = .ok v ∧ -v = u := by
  rw [evaluate, bind_eq_ok]
  refine exists_congr fun v => and_congr_right fun _ => ?_
  exact ⟨fun h => Except.ok.inj h, fun h => congrArg Except.ok h⟩

theorem evaluate_call_eq_ok {f : Function} :
    (call f e).evaluate x = .ok u ↔ ∃ v, e.evaluate x = .ok v ∧ f.apply v = .ok u := by
  rw [evaluate, bind_eq_ok]

theorem evaluate_binary_eq_ok {op : Operator} : (binary op a b).evaluate x = .ok u ↔
    ∃ v w, a.evaluate x = .ok v ∧ b.evaluate x = .ok w ∧ op.apply v w = .ok u := by
  rw [evaluate, bind_eq_ok]
  refine exists_congr fun v => ?_
  rw [bind_eq_ok]
  simp

/-- Without the variable the value does not depend on what the variable is bound to. -/
theorem evaluate_congr (h : e.contains boundName = false) : e.evaluate x = e.evaluate y := by
  induction e with
  | atom a =>
    cases a with
    | number v => rfl
    | constant c => rfl
    | var name =>
      have hname : name ≠ boundName := by simpa [contains] using h
      cases x <;> cases y <;> simp [evaluate, evaluateAtom, hname]
  | neg e ih => rw [evaluate, evaluate, ih h]
  | call f e ih => rw [evaluate, evaluate, ih h]
  | binary op a b iha ihb =>
    obtain ⟨ha, hb⟩ : a.contains boundName = false ∧ b.contains boundName = false := by simpa [contains] using h
    rw [evaluate, evaluate, iha ha, ihb hb]

end PocketCalc.Expr
