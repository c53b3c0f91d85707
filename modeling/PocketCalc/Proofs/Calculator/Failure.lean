import Mathlib.Control.Monad.Basic
import PocketCalc.Proofs.Calculator.Run

/-!
# Keys that fail

* `Fails` — the computation that a key asks for has an error;
* `attempt`, `orFail` — a key as a computation of the whole calculator, and what becomes of its result or error;
* `press_eq_orFail`, `attempt_eq_error` — the keys are these computations, and have no errors but those;
* `display_press_of_isDone` — a character or a point replaces a result, and an error alike;
* `press_atomic` — so a key does all that it does, or shows an error and changes nothing else;
* `fails_iff` — the error is why the display is no formula, or what the key computes of its formula has it;
* `pressAll_fail` — so an error that is shown stays as it is, however often something is computed of it.
-/

namespace PocketCalc.Calculator

variable {c : Calculator} {k : Key} {err : CalcError} {keys : List Key}

/-- The computation that a key asks for has this error: the text of a result, or the value of the display. The other
keys ask for none. -/
def Fails (c : Calculator) (k : Key) (err : CalcError) : Prop :=
  match k with
  | .equals => Compute.resultText c.display c.settings.width = .error err
  | .task t => t.resultText c.display c.settings = .error err
  | .memoryStore | .memoryAdd | .memorySubtract => Compute.valueOf c.display = .error err
  | _ => False

/-- The calculator with a result, and with the entry for it in the history. -/
def answered (c : Calculator) (asked : Text) (last : LastKey) (t : Text) : Calculator :=
  { c with display := t, isDone := true, lastKey := last, history := c.history ++ [asked ++ " = ".toList ++ t] }

/-- The calculator that a key leads to: all of it, or an error and nothing of it. -/
def attempt (c : Calculator) : Key → Except CalcError Calculator
  | .equals => (Compute.resultText c.display c.settings.width).map (c.answered c.display .equals)
  | .task t => (t.resultText c.display c.settings).map (c.answered (t.name ++ '(' :: c.display ++ [')']) .task)
  | .memoryStore => (Compute.valueOf c.display).map fun v => { c with memory := some v }
  | .memoryAdd => (Compute.valueOf c.display).map fun v =>
    { c with memory := some (match c.memory with | some m => c.rounded (m + v) | none => v) }
  | .memorySubtract => (Compute.valueOf c.display).map fun v =>
    { c with memory := some (c.rounded (match c.memory with | some m => m - v | none => -v)) }
  | k => .ok (c.press k)

/-- The calculator that an attempt leads to, or the failure. -/
def orFail (c : Calculator) : Except CalcError Calculator → Calculator
  | .ok done => done
  | .error _ => c.fail

/-! ## One key -/

theorem answer_eq_orFail (c : Calculator) (asked : Text) (last : LastKey) (result : Except CalcError Text) :
    c.answer asked last result = c.orFail (result.map (c.answered asked last)) := by
  cases result with
  | ok t => rfl
  | error err => rfl

theorem withValue_eq_orFail (c : Calculator) (f : Binary64 → Calculator) :
    c.withValue f = c.orFail ((Compute.valueOf c.display).map f) := by
  unfold withValue
  cases Compute.valueOf c.display with
  | ok v => rfl
  | error err => rfl

/-- **A key leads to what its attempt leads to, or fails with it.** -/
theorem press_eq_orFail (c : Calculator) (k : Key) : c.press k = c.orFail (c.attempt k) := by
  cases k with
  | equals => exact answer_eq_orFail ..
  | task t => exact answer_eq_orFail ..
  | memoryStore => exact withValue_eq_orFail ..
  | memoryAdd =>
    rw [press, withValue_eq_orFail, attempt]
    cases c.memory with
    | none => rfl
    | some m => rfl
  | memorySubtract =>
    rw [press, withValue_eq_orFail, attempt]
    cases c.memory with
    | none => rfl
    | some m => rfl
  | _ => rfl

theorem attempt_eq_error : c.attempt k = .error err ↔ c.Fails k err := by
  cases k with
  | equals | task t | memoryStore | memoryAdd | memorySubtract => exact map_eq_error
  | _ => exact ⟨nofun, False.elim⟩

/-- A character or a point replaces what is done. -/
theorem display_press_of_isDone (h : c.isDone = true) :
    (∀ ch, (c.press (.character ch)).display = [ch]) ∧ (c.press .point).display = "0.".toList := by
  refine ⟨fun ch => ?_, ?_⟩
  · simp only [press, typeChar, h, or_true, if_true]
  · simp only [press, typePoint, h, if_true]

/-- **A key does all that it does, or nothing.** Either the calculator after a key is the one that the key leads to, and
the computation that it asks for has no error; or it has one, and then the calculator shows the error, which the next
character replaces, and is otherwise as before: with the same memory, history, settings and last key. A character or a
point then shows what it shows after any result, the character alone or `0.`. -/
theorem press_atomic (c : Calculator) (k : Key) :
    ((∀ err, ¬ c.Fails k err) ∧ ∃ done, c.attempt k = .ok done ∧ c.press k = done) ∨
      ∃ err, c.Fails k err ∧ c.press k = { c with display := errorText, isDone := true } ∧
        ∀ shown : Calculator, shown.isDone = true →
          (∀ ch, ((c.press k).press (.character ch)).display = [ch] ∧ (shown.press (.character ch)).display = [ch]) ∧
            ((c.press k).press .point).display = "0.".toList ∧ (shown.press .point).display = "0.".toList := by
  cases h : c.attempt k with
  | ok done =>
    refine .inl ⟨fun err herr => ?_, done, rfl, ?_⟩
    · rw [← attempt_eq_error, h] at herr
      cases herr
    · rw [press_eq_orFail, h, orFail]
  | error err =>
    have hpress : c.press k = { c with display := errorText, isDone := true } := by rw [press_eq_orFail, h, orFail, fail]
    have hdone : (c.press k).isDone = true := by rw [hpress]
    obtain ⟨hchar, hpoint⟩ := display_press_of_isDone hdone
    refine .inr ⟨err, attempt_eq_error.1 h, hpress, fun shown hshown => ?_⟩
    obtain ⟨hchar', hpoint'⟩ := display_press_of_isDone hshown
    exact ⟨fun ch => ⟨hchar ch, hchar' ch⟩, hpoint, hpoint'⟩

/-! ## Where a key fails -/

/-- What a key computes of the formula on the display; nothing for the keys that compute nothing. -/
def computation? (s : Settings) : Key → Option (Formula → Except EvalError Binary64)
  | .equals | .memoryStore | .memoryAdd | .memorySubtract => some (Expr.evaluate none)
  | .task t => some (t.onFormula s ·)
  | _ => none

/-- **A key fails on a display that is no formula, or with the error of what it computes of the formula.** -/
theorem fails_iff : c.Fails k err ↔ ∃ f, computation? c.settings k = some f ∧ Compute.CauseOf c.display f err := by
  cases k with
  | equals =>
    rw [Fails, Compute.resultText_eq_error, Compute.valueOf_eq_error]
    simp only [computation?, Option.some.injEq, exists_eq_left']
  | task t =>
    rw [Fails, Compute.Task.resultText_eq_error, Compute.Task.value_eq_error]
    simp only [computation?, Option.some.injEq, exists_eq_left']
  | memoryStore | memoryAdd | memorySubtract =>
    rw [Fails, Compute.valueOf_eq_error]
    simp only [computation?, Option.some.injEq, exists_eq_left']
  | _ => exact ⟨False.elim, nofun⟩

/-- The text of an error is no formula. -/
theorem parse_errorText : Formula.parse errorText = .error (.unknownName "error".toList) := by decide +kernel

/-- A key that computes fails once an error is shown, and changes nothing. -/
theorem press_fail (h : (computation? c.settings k).isSome = true) : c.fail.press k = c.fail := by
  obtain ⟨f, hf⟩ := Option.isSome_iff_exists.1 h
  have hfails : c.fail.Fails k (.parse (.unknownName "error".toList)) := fails_iff.2 ⟨f, hf, .text parse_errorText⟩
  rw [press_eq_orFail, attempt_eq_error.2 hfails]
  rfl

/-- **An error stays as it is, however often something is computed of it.** -/
theorem pressAll_fail (h : ∀ k ∈ keys, (computation? c.settings k).isSome = true) : c.fail.pressAll keys = c.fail := by
  rw [pressAll_eq_run]
  refine run_invariant (· = c.fail) (fun shown i hi hshown => ?_) rfl
  obtain ⟨k, hk, rfl⟩ := List.mem_map.1 hi
  rw [hshown, handle, press_fail (h k hk)]

end PocketCalc.Calculator
