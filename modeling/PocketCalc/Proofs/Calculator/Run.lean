import PocketCalc.Calculator.Basic
import PocketCalc.Proofs.Calculator.Compute

/-!
# Runs of the calculator

* `Input`, `handle`, `run` — keys and changes of settings, and the calculator after some of them;
* `pressAll_eq_run`, `run_invariant` — some keys are a run, and what every input keeps, a run keeps;
* `answer_cases`, `withValue_cases` — a key that computes has a result, or fails;
* `press_memory_cases` — a key that writes to the memory changes nothing else, or fails.
-/

namespace PocketCalc

/-- What can happen to a calculator. -/
inductive Input where
  | key (k : Key)
  | setting (s : Setting)
deriving DecidableEq

namespace Calculator

/-- The calculator after an input. -/
def handle (c : Calculator) : Input → Calculator
  | .key k => c.press k
  | .setting s => c.set s

/-- The calculator after some inputs. -/
def run (c : Calculator) (inputs : List Input) : Calculator := inputs.foldl handle c

variable {c : Calculator} {i : Input} {inputs inputs' : List Input}

@[simp] theorem run_nil : c.run [] = c := rfl

@[simp] theorem run_cons : c.run (i :: inputs) = (c.handle i).run inputs := rfl

@[simp] theorem run_append : c.run (inputs ++ inputs') = (c.run inputs).run inputs' := List.foldl_append

theorem pressAll_append (c : Calculator) (keys keys' : List Key) :
    c.pressAll (keys ++ keys') = (c.pressAll keys).pressAll keys' := List.foldl_append

/-- Some keys are a run without changes of settings. -/
theorem pressAll_eq_run (c : Calculator) (keys : List Key) : c.pressAll keys = c.run (keys.map .key) := by
  rw [run, List.foldl_map]
  rfl

/-- What every input keeps, a run keeps. -/
theorem run_invariant (P : Calculator → Prop) (hstep : ∀ c, ∀ i ∈ inputs, P c → P (c.handle i)) (hc : P c) :
    P (c.run inputs) := by
  induction inputs generalizing c with
  | nil => exact hc
  | cons i inputs ih =>
    have hnext : P (c.handle i) := hstep c i (List.mem_cons_self ..) hc
    exact ih (fun c j hj => hstep c j (List.mem_cons_of_mem _ hj)) hnext

/-! ## Keys that compute -/

variable {asked : Text} {last : LastKey} {result : Except CalcError Text} {f : Binary64 → Calculator}

/-- The result is shown and kept in the history, or the failure is shown. -/
theorem answer_cases (c : Calculator) (asked : Text) (last : LastKey) (result : Except CalcError Text) :
    (∃ t, result = .ok t ∧ c.answer asked last result =
      { c with display := t, isDone := true, lastKey := last, history := c.history ++ [asked ++ " = ".toList ++ t] }) ∨
      ∃ err, result = .error err ∧ c.answer asked last result = c.fail := by
  cases result with
  | ok t => exact .inl ⟨t, rfl, rfl⟩
  | error err => exact .inr ⟨err, rfl, rfl⟩

/-- The value of the display is used, or the failure is shown. -/
theorem withValue_cases (c : Calculator) (f : Binary64 → Calculator) :
    (∃ v, Compute.valueOf c.display = .ok v ∧ c.withValue f = f v) ∨
      ∃ err, Compute.valueOf c.display = .error err ∧ c.withValue f = c.fail := by
  unfold withValue
  cases Compute.valueOf c.display with
  | ok v => exact .inl ⟨v, rfl, rfl⟩
  | error err => exact .inr ⟨err, rfl, rfl⟩

/-- The keys that write to the memory. -/
def memoryKeys : List Key := [.memoryStore, .memoryClear, .memoryAdd, .memorySubtract]

/-- A key that writes to the memory changes nothing else, or the failure is shown. -/
theorem press_memory_cases {k : Key} (hk : k ∈ memoryKeys) (c : Calculator) :
    (∃ m, c.press k = { c with memory := m }) ∨ c.press k = c.fail := by
  have hvalue {f : Binary64 → Calculator} (hf : ∀ v, ∃ m, f v = { c with memory := m }) :
      (∃ m, c.withValue f = { c with memory := m }) ∨ c.withValue f = c.fail := by
    rcases c.withValue_cases f with ⟨v, -, heq⟩ | ⟨err, -, heq⟩
    · exact .inl (heq ▸ hf v)
    · exact .inr heq
  simp only [memoryKeys, List.mem_cons, List.not_mem_nil, or_false] at hk
  rcases hk with rfl | rfl | rfl | rfl
  · exact hvalue fun v => ⟨_, rfl⟩
  · exact .inl ⟨none, rfl⟩
  · refine hvalue fun v => ?_
    cases c.memory with
    | none => exact ⟨_, rfl⟩
    | some m => exact ⟨_, rfl⟩
  · refine hvalue fun v => ?_
    cases c.memory with
    | none => exact ⟨_, rfl⟩
    | some m => exact ⟨_, rfl⟩

end Calculator

end PocketCalc
