import PocketCalc.Proofs.Calculator.History
import PocketCalc.Proofs.Expr.ZeroMinus
import PocketCalc.Proofs.Numeral.Readable

/-!
# The memory

* `HasFiniteMemory` — the memory is empty, or it holds a finite number;
* `valueOf_recall` — what the memory shows has a value exactly if the memory holds a finite number;
* `Step.handed?` — the number that a memory key hands over to the memory: the value of the display, or its sum or
  difference with the memory. Nothing looks at the size of a sum;
* `Step.isFinite_or_sum` — without functions in the display, only such a sum or difference may not be finite;
* `memory_after` — a step stores what is handed over, clears the memory, or leaves it as it is;
* `hasFiniteMemory_run` — so the memory stays finite exactly as long as finite numbers are handed over.
-/

namespace PocketCalc.Calculator

open Numeral

variable {c : Calculator} {k : Key} {m v w : Binary64} {s : Step}

/-- The memory is empty, or it holds a finite number. -/
def HasFiniteMemory (c : Calculator) : Prop := ∀ m, c.memory = some m → m.isFinite = true

/-! ## What the memory shows -/

/-- A number as it is shown is finite exactly if the number is. -/
theorem isFinite_rounded (c : Calculator) (v : Binary64) : (c.rounded v).isFinite = v.isFinite := by
  obtain ⟨w, hw, hread⟩ := read?_fitted v c.settings.width
  rw [rounded, hread]
  exact hw

/-- **What the memory shows has a value exactly if the memory holds a finite number.** -/
theorem valueOf_recall (h : c.memory = some m) :
    (∃ v, Compute.valueOf (c.press .memoryRecall).display = .ok v) ↔ m.isFinite = true := by
  have hdisplay : (c.press .memoryRecall).display = fitted m c.settings.width := by
    simp only [press, memoryText?, h, Option.map_some]
  rw [hdisplay]
  exact valueOf_fitted_iff m c.settings.width

/-! ## One key -/

/-- What a key makes of the memory and the value of the display, for the memory. -/
def memoryInput? (memory : Option Binary64) (v : Binary64) : Key → Option Binary64
  | .memoryStore => some v
  | .memoryAdd => some (match memory with | some m => m + v | none => v)
  | .memorySubtract => some (match memory with | some m => m - v | none => -v)
  | _ => none

/-- The number that a step hands over to the memory; none if the display has no value. -/
def Step.handed? (s : Step) : Option Binary64 :=
  match s.input, Compute.valueOf s.before.display with
  | .key k, .ok v => memoryInput? s.before.memory v k
  | _, _ => none

/-- What goes into the memory is the value of the display, its opposite, or its sum or difference with the memory. -/
theorem memoryInput?_cases {memory : Option Binary64} (h : memoryInput? memory v k = some w) :
    (w = v ∨ w = -v) ∨ ∃ m, memory = some m ∧ (w = m + v ∨ w = m - v) := by
  cases k with
  | memoryStore | memoryAdd | memorySubtract => cases memory <;> cases h <;> simp
  | _ => cases h

theorem Step.handed?_eq_some (h : s.handed? = some w) :
    ∃ k v, Compute.valueOf s.before.display = .ok v ∧ memoryInput? s.before.memory v k = some w := by
  unfold Step.handed? at h
  split at h
  next k v hk hv => exact ⟨k, v, hv, h⟩
  next => cases h

/-- A display that calls no function has a finite value, so that only a sum or difference with the memory may
not be finite. -/
theorem Step.isFinite_or_sum {f : Formula} (hf : Formula.parse s.before.display = .ok f) (hcalls : f.hasCalls = false)
    (h : s.handed? = some w) :
    w.isFinite = true ∨ ∃ m v, s.before.memory = some m ∧ Compute.valueOf s.before.display = .ok v ∧
      (w = m + v ∨ w = m - v) := by
  obtain ⟨k, v, hv, hinput⟩ := Step.handed?_eq_some h
  obtain ⟨f', hf', hvalue⟩ := Compute.valueOf_eq_ok.1 hv
  obtain rfl : f = f' := Except.ok.inj (hf.symm.trans hf')
  have hfinite : v.isFinite = true := isFinite_of_not_hasCalls hcalls hvalue
  rcases memoryInput?_cases hinput with (rfl | rfl) | ⟨m, hm, hw⟩
  · exact .inl hfinite
  · exact .inl ((Binary64.isFinite_neg v).trans hfinite)
  · exact .inr ⟨m, v, hm, hv, hw⟩

/-- The number that is handed over is stored, as it is or as it is shown. -/
theorem memory_press_of_value (hv : Compute.valueOf c.display = .ok v) (hw : memoryInput? c.memory v k = some w) :
    ∃ m, (c.press k).memory = some m ∧ (m = w ∨ m = c.rounded w) := by
  cases k with
  | memoryStore =>
    cases hw
    exact ⟨v, by simp [press, withValue, hv], .inl rfl⟩
  | memoryAdd =>
    cases hw
    cases hm : c.memory with
    | none => exact ⟨v, by simp [press, withValue, hv, hm], .inl rfl⟩
    | some m => exact ⟨c.rounded (m + v), by simp [press, withValue, hv, hm], .inr rfl⟩
  | memorySubtract =>
    cases hw
    cases hm : c.memory with
    | none => exact ⟨c.rounded (-v), by simp [press, withValue, hv, hm], .inr rfl⟩
    | some m => exact ⟨c.rounded (m - v), by simp [press, withValue, hv, hm], .inr rfl⟩
  | _ => cases hw

theorem memory_answer (c : Calculator) (asked : Text) (last : LastKey) (result : Except CalcError Text) :
    (c.answer asked last result).memory = c.memory := by
  cases result <;> rfl

/-- A key that hands nothing over clears the memory, or leaves it as it is. -/
theorem memory_press_of_none (h : ∀ v, Compute.valueOf c.display = .ok v → memoryInput? c.memory v k = none) :
    (c.press k).memory = none ∨ (c.press k).memory = c.memory := by
  have hfail (f : Binary64 → Calculator) (hnone : ∀ v, Compute.valueOf c.display ≠ .ok v) : c.withValue f = c.fail := by
    rcases c.withValue_cases f with ⟨v, hv, -⟩ | ⟨-, -, heq⟩
    · exact absurd hv (hnone v)
    · exact heq
  cases k with
  | memoryClear => exact .inl rfl
  | memoryStore | memoryAdd | memorySubtract =>
    right
    rw [press, hfail _ fun v hv => by cases h v hv]
    rfl
  | equals => exact .inr (memory_answer ..)
  | task t => exact .inr (memory_answer ..)
  | character ch =>
    right
    simp only [press, typeChar]
    split <;> rfl
  | point =>
    right
    simp only [press, typePoint]
    split
    · rfl
    · split <;> rfl
  | memoryRecall =>
    right
    simp only [press]
    split <;> rfl
  | sign | clearAll | clearEntry | backspace | constant | clearHistory => exact .inr rfl

/-! ## Runs -/

/-- **What a step does to the memory.** The number that is handed over is stored, as it is or as it is shown; without
one the memory is cleared, or stays as it is. -/
theorem memory_after (s : Step) :
    match s.handed? with
    | some w => ∃ m, s.after.memory = some m ∧ (m = w ∨ m = s.before.rounded w)
    | none => s.after.memory = none ∨ s.after.memory = s.before.memory := by
  obtain ⟨c, i⟩ := s
  cases i with
  | setting change => exact .inr rfl
  | key k =>
    simp only [Step.handed?, Step.after, handle]
    cases hv : Compute.valueOf c.display with
    | error err => exact memory_press_of_none fun v hok => by rw [hok] at hv; cases hv
    | ok v =>
      simp only
      cases hw : memoryInput? c.memory v k with
      | some w => exact memory_press_of_value hv hw
      | none =>
        refine memory_press_of_none fun v' hv' => ?_
        obtain rfl : v = v' := Except.ok.inj (hv.symm.trans hv')
        exact hw

/-- A step keeps the memory finite exactly if it hands over no number that is not. -/
theorem hasFiniteMemory_after (h : s.before.HasFiniteMemory) :
    s.after.HasFiniteMemory ↔ ∀ w, s.handed? = some w → w.isFinite = true := by
  have hstep := memory_after s
  cases hw : s.handed? with
  | some w =>
    rw [hw] at hstep
    obtain ⟨m, hm, hstored⟩ := hstep
    have hfinite : m.isFinite = w.isFinite := by
      rcases hstored with rfl | rfl
      · rfl
      · exact isFinite_rounded s.before w
    simp [HasFiniteMemory, hm, hfinite]
  | none =>
    rw [hw] at hstep
    refine iff_of_true (fun m hm => ?_) nofun
    rcases hstep with hnone | hsame
    · rw [hnone] at hm
      cases hm
    · exact h m (hsame ▸ hm)

theorem hasFiniteMemory_steps (inputs : List Input) (h : c.HasFiniteMemory) :
    (∀ s ∈ steps c inputs, s.after.HasFiniteMemory) ↔
      ∀ s ∈ steps c inputs, ∀ w, s.handed? = some w → w.isFinite = true := by
  induction inputs generalizing c with
  | nil => simp [steps]
  | cons i inputs ih =>
    rw [steps, List.forall_mem_cons, List.forall_mem_cons, ← hasFiniteMemory_after (s := ⟨c, i⟩) h]
    exact and_congr_right fun hafter => ih hafter

/-- **The memory is finite exactly as long as finite numbers are handed over.** In every run, the memory is finite after
each step if and only if each number that a memory key has handed over was finite. Where the display calls no function,
that number is finite unless it is a sum or difference with the memory, which nothing keeps from overflowing. What the
memory shows has a value exactly if the memory is finite. -/
theorem hasFiniteMemory_run (inputs : List Input) :
    ((∀ s ∈ steps {} inputs, s.after.HasFiniteMemory) ↔
        ∀ s ∈ steps {} inputs, ∀ w, s.handed? = some w → w.isFinite = true) ∧
      (∀ s ∈ steps {} inputs, ∀ f w, Formula.parse s.before.display = .ok f → f.hasCalls = false →
        s.handed? = some w → w.isFinite = true ∨ ∃ m v, s.before.memory = some m ∧
          Compute.valueOf s.before.display = .ok v ∧ (w = m + v ∨ w = m - v)) ∧
      ∀ s ∈ steps {} inputs, ∀ m, s.after.memory = some m →
        ((∃ v, Compute.valueOf (s.after.press .memoryRecall).display = .ok v) ↔ m.isFinite = true) :=
  ⟨hasFiniteMemory_steps inputs nofun, fun _ _ _ _ => Step.isFinite_or_sum, fun _ _ _ => valueOf_recall⟩

/-- The sum of `1e308` with itself goes into the memory as an infinity, and what the memory shows then has no value. -/
theorem memory_run_overflow :
    let c := run {} ((keysOf "1e308".toList ++ [Key.memoryAdd, Key.memoryAdd]).map Input.key)
    c.memory = some .infinity ∧ ¬ ∃ v, Compute.valueOf (c.press .memoryRecall).display = .ok v := by
  intro c
  have hmemory : c.memory = some .infinity := by decide +kernel
  refine ⟨hmemory, ?_⟩
  rw [valueOf_recall hmemory]
  decide +kernel

end PocketCalc.Calculator
