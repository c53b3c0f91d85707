import PocketCalc.Calculator.Compute
import PocketCalc.Proofs.Outcome

/-!
# When a computation with a text succeeds

* `valueOf_eq_ok` — a text has a value exactly if it is a formula that has one;
* `resultText_eq_ok`, `Task.resultText_eq_ok` — the text of a result is the value, fitted into the width;
* `value_function_eq_ok` — a function key applies its function to the value;
* `CauseOf` — the text is no formula, or its formula has an error;
* `valueOf_eq_error`, `Task.value_eq_error` — nothing else makes a computation with a text fail;
* `resultText_eq_error`, `Task.resultText_eq_error` — and fitting a value into the width never does.
-/

namespace PocketCalc.Compute

variable {t shown : Text} {width : Nat} {s : Settings} {v : Binary64} {err : CalcError}

theorem valueOf_eq_ok : valueOf t = .ok v ↔ ∃ e, Formula.parse t = .ok e ∧ e.evaluate none = .ok v := by
  simp only [valueOf, read, bind_eq_ok, mapError_eq_ok]

theorem resultText_eq_ok :
    resultText t width = .ok shown ↔ ∃ v, valueOf t = .ok v ∧ Numeral.fitted v width = shown := by
  rw [resultText, bind_eq_ok]
  refine exists_congr fun v => and_congr_right fun _ => ?_
  exact ⟨fun h => Except.ok.inj h, fun h => congrArg Except.ok h⟩

theorem Task.resultText_eq_ok {task : Task} :
    task.resultText t s = .ok shown ↔ ∃ v, task.value t s = .ok v ∧ Numeral.fitted v s.width = shown := by
  rw [Task.resultText, bind_eq_ok]
  refine exists_congr fun v => and_congr_right fun _ => ?_
  exact ⟨fun h => Except.ok.inj h, fun h => congrArg Except.ok h⟩

theorem value_function_eq_ok {f : Function} :
    (Task.function f).value t s = .ok v ↔ ∃ w, valueOf t = .ok w ∧ f.apply w = .ok v := by
  simp only [Task.value, bind_eq_ok, mapError_eq_ok]

/-! ## Failures -/

/-- The error is why the text is no formula, or it is the error that the formula has. -/
inductive CauseOf (t : Text) (f : Formula → Except EvalError Binary64) : CalcError → Prop where
  | text {cause : ParseError} (h : Formula.parse t = .error cause) : CauseOf t f (.parse cause)
  | formula {e : Formula} {cause : EvalError} (h : Formula.parse t = .ok e) (he : f e = .error cause) :
      CauseOf t f (.eval cause)

/-- What a task makes of a formula. -/
def Task.onFormula (s : Settings) (e : Formula) : Task → Except EvalError Binary64
  | .function f => e.evaluate none >>= f.apply
  | .derivative => e.derivativeAt s.point
  | .integral => e.integral s.low s.high s.steps

theorem read_bind_eq_error {f : Formula → Except EvalError Binary64} :
    (read t >>= fun e => (f e).mapError .eval) = .error err ↔ CauseOf t f err := by
  rw [bind_eq_error]
  constructor
  · rintro (h | ⟨e, he, h⟩)
    · obtain ⟨cause, hcause, rfl⟩ := mapError_eq_error.1 h
      exact .text hcause
    · obtain ⟨cause, hcause, rfl⟩ := mapError_eq_error.1 h
      exact .formula (mapError_eq_ok.1 he) hcause
  · intro h
    cases h with
    | text h => exact .inl (mapError_eq_error.2 ⟨_, h, rfl⟩)
    | formula h he => exact .inr ⟨_, mapError_eq_ok.2 h, mapError_eq_error.2 ⟨_, he, rfl⟩⟩

theorem valueOf_eq_error : valueOf t = .error err ↔ CauseOf t (Expr.evaluate none) err := read_bind_eq_error

/-- A function of the value fails where the value fails, or at the function. -/
theorem Task.value_function (f : Function) :
    (Task.function f).value t s = read t >>= fun e => ((Task.function f).onFormula s e).mapError .eval := by
  show (read t >>= fun e => (e.evaluate none).mapError CalcError.eval) >>= (fun v => (f.apply v).mapError CalcError.eval) = _
  cases read t with
  | error err => rfl
  | ok e =>
    show ((e.evaluate none).mapError CalcError.eval >>= fun v => (f.apply v).mapError CalcError.eval) =
      (e.evaluate none >>= f.apply).mapError CalcError.eval
    cases e.evaluate none with
    | error cause => rfl
    | ok v => rfl

theorem Task.value_eq_error {task : Task} : task.value t s = .error err ↔ CauseOf t (task.onFormula s ·) err := by
  cases task with
  | function f =>
    rw [Task.value_function]
    exact read_bind_eq_error
  | derivative => exact read_bind_eq_error
  | integral => exact read_bind_eq_error

theorem resultText_eq_error : resultText t width = .error err ↔ valueOf t = .error err := by
  rw [resultText, bind_eq_error]
  exact or_iff_left (by rintro ⟨v, -, ⟨⟩⟩)

theorem Task.resultText_eq_error {task : Task} : task.resultText t s = .error err ↔ task.value t s = .error err := by
  rw [Task.resultText, bind_eq_error]
  exact or_iff_left (by rintro ⟨v, -, ⟨⟩⟩)

end PocketCalc.Compute
