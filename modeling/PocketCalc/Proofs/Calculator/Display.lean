import PocketCalc.Proofs.Calculator.Run
import PocketCalc.Proofs.Numeral.Fitted
import PocketCalc.Window.Frame

/-!
# What every calculator shows

* `Settings.InLimits` — the settings are within their limits; changing one keeps them there;
* `WellFormed` — the invariant of the calculator. That an error is only shown as long as the next character replaces
  it is not kept by the keys that edit the display: what they leave of an error still has its capital `E`, which no
  key types and no number has, so the invariant speaks of that;
* `WellFormed.press` — every key keeps it;
* `wellFormed_run` — so it holds after every run from the start.
-/

namespace PocketCalc

open Numeral

/-! ## Settings -/

/-- Every setting is within its limits. -/
structure Settings.InLimits (s : Settings) : Prop where
  width : minWidth ≤ s.width ∧ s.width ≤ maxWidth
  steps : 1 ≤ s.steps ∧ s.steps ≤ Expr.maxSteps
  point : s.point.isFinite = true
  low : s.low.isFinite = true
  high : s.high.isFinite = true

theorem Settings.inLimits_default : ({} : Settings).InLimits where
  width := by decide
  steps := by decide
  point := rfl
  low := rfl
  high := rfl

theorem Settings.InLimits.set {s : Settings} (h : s.InLimits) (change : Setting) : (s.set change).InLimits := by
  obtain ⟨hwidth, hsteps, hpoint, hlow, hhigh⟩ := h
  cases change with
  | width n =>
    refine ⟨?_, hsteps, hpoint, hlow, hhigh⟩
    simp only [Settings.set, minWidth, maxWidth]
    omega
  | steps n =>
    refine ⟨hwidth, ?_, hpoint, hlow, hhigh⟩
    simp only [Settings.set, Expr.clampSteps, Expr.maxSteps]
    omega
  | point v =>
    simp only [Settings.set]
    split
    next hv => exact ⟨hwidth, hsteps, hv, hlow, hhigh⟩
    next => exact ⟨hwidth, hsteps, hpoint, hlow, hhigh⟩
  | interval low high =>
    simp only [Settings.set]
    split
    next hv =>
      obtain ⟨hlow', hhigh'⟩ := Bool.and_eq_true_iff.1 hv
      exact ⟨hwidth, hsteps, hpoint, hlow', hhigh'⟩
    next => exact ⟨hwidth, hsteps, hpoint, hlow, hhigh⟩

namespace Calculator

/-! ## The invariant -/

/-- The display has something on it and at most one point; a capital `E` on it is what is left of an error, which the
next character replaces; and the settings are within their limits. -/
structure WellFormed (c : Calculator) : Prop where
  ne_nil : c.display ≠ []
  point : c.display.count '.' ≤ 1
  capital : 'E' ∈ c.display → c.isDone = true
  settings : c.settings.InLimits

theorem wellFormed_start : ({} : Calculator).WellFormed where
  ne_nil := by decide
  point := by decide
  capital := by decide
  settings := Settings.inLimits_default

variable {c c' : Calculator} {t : Text}

/-- A text that is presentable may be shown instead of the display. -/
theorem WellFormed.show (h : c.WellFormed) (hs : c'.settings = c.settings) (ht : Presentable c'.display) :
    c'.WellFormed where
  ne_nil := ht.ne_nil
  point := ht.point
  capital hmem := absurd hmem ht.capital
  settings := hs ▸ h.settings

/-- The display may be edited, if that puts no point and no capital on it. -/
theorem WellFormed.edit (h : c.WellFormed) (hs : c'.settings = c.settings) (hdone : c'.isDone = c.isDone)
    (hne : c'.display ≠ []) (hpoint : c'.display.count '.' ≤ c.display.count '.')
    (hcapital : 'E' ∈ c'.display → 'E' ∈ c.display) : c'.WellFormed where
  ne_nil := hne
  point := hpoint.trans h.point
  capital hmem := hdone.trans (h.capital (hcapital hmem))
  settings := hs ▸ h.settings

theorem WellFormed.fail (h : c.WellFormed) : c.fail.WellFormed where
  ne_nil := by simp [Calculator.fail, errorText]
  point := by simp [Calculator.fail, errorText]
  capital _ := rfl
  settings := h.settings

/-! ## Editing -/

theorem orBlank_ne_nil (t : Text) : orBlank t ≠ [] := by
  unfold orBlank
  split
  next => simp [blank]
  next h => exact h

theorem count_orBlank_le (t : Text) : (orBlank t).count '.' ≤ t.count '.' := by
  unfold orBlank
  split
  next h => simp [h, blank]
  next => exact Nat.le_refl _

theorem mem_of_mem_orBlank (h : 'E' ∈ orBlank t) : 'E' ∈ t := by
  unfold orBlank at h
  split at h
  next => simp [blank] at h
  next => exact h

theorem presentable_blank : Presentable blank := ⟨by decide, by decide, by decide⟩

theorem presentable_zeroPoint : Presentable "0.".toList := ⟨by decide, by decide, by decide⟩

/-- No character that is typed is a point or a capital. -/
theorem ne_of_mem_typedCharacters {ch : Char} (h : ch ∈ typedCharacters) : ch ≠ '.' ∧ ch ≠ 'E' := by
  have hpoint : '.' ∉ typedCharacters := by decide
  have hcapital : 'E' ∉ typedCharacters := by decide
  exact ⟨fun heq => hpoint (heq ▸ h), fun heq => hcapital (heq ▸ h)⟩

theorem WellFormed.typeChar {ch : Char} (h : c.WellFormed) (hch : ch ∈ typedCharacters) :
    (c.typeChar ch).WellFormed := by
  obtain ⟨hpoint, hcapital⟩ := ne_of_mem_typedCharacters hch
  unfold Calculator.typeChar
  split
  next =>
    refine h.show rfl ⟨by simp, ?_, ?_⟩
    · simp [hpoint]
    · simpa using hcapital.symm
  next =>
    refine h.edit rfl rfl (by simp) ?_ ?_
    · simp [hpoint]
    · intro hmem
      simpa [hcapital.symm] using hmem

theorem WellFormed.typePoint (h : c.WellFormed) : c.typePoint.WellFormed := by
  unfold Calculator.typePoint
  split
  next => exact h.show rfl presentable_zeroPoint
  next hdone =>
    split
    next => exact h.edit rfl rfl h.ne_nil (Nat.le_refl _) id
    next hpoint =>
      have hnone : c.display.count '.' = 0 := List.count_eq_zero.2 hpoint
      refine ⟨by simp, ?_, ?_, h.settings⟩
      · simp [hnone]
      · intro hmem
        exact h.capital (by simpa using hmem)

theorem WellFormed.withSign (h : c.WellFormed) : { c with display := withSign c.display }.WellFormed := by
  unfold Calculator.withSign
  split
  next t ht =>
    refine h.edit rfl rfl (orBlank_ne_nil t) ?_ ?_
    · simpa [ht] using count_orBlank_le t
    · intro hmem
      simpa [ht] using mem_of_mem_orBlank hmem
  next =>
    refine h.edit rfl rfl (by simp) ?_ ?_
    · simp
    · intro hmem
      simpa using hmem

theorem WellFormed.backspace (h : c.WellFormed) : { c with display := orBlank c.display.dropLast }.WellFormed := by
  refine h.edit rfl rfl (orBlank_ne_nil _) ?_ ?_
  · exact (count_orBlank_le _).trans (c.display.dropLast_sublist.count_le '.')
  · intro hmem
    exact c.display.dropLast_sublist.subset (mem_of_mem_orBlank hmem)

/-! ## Every key -/

theorem WellFormed.answer (h : c.WellFormed) {asked : Text} {last : LastKey} {result : Except CalcError Text}
    (hresult : ∀ t, result = .ok t → Presentable t) : (c.answer asked last result).WellFormed := by
  rcases c.answer_cases asked last result with ⟨t, hok, heq⟩ | ⟨err, -, heq⟩
  · rw [heq]
    exact h.show rfl (hresult t hok)
  · rw [heq]
    exact h.fail

/-- The memory and the history are no part of the invariant. -/
theorem WellFormed.congr (h : c.WellFormed) (hdisplay : c'.display = c.display) (hdone : c'.isDone = c.isDone)
    (hs : c'.settings = c.settings) : c'.WellFormed :=
  h.edit hs hdone (hdisplay ▸ h.ne_nil) (hdisplay ▸ Nat.le_refl _) (hdisplay ▸ id)

theorem WellFormed.press_memory (h : c.WellFormed) {k : Key} (hk : k ∈ memoryKeys) : (c.press k).WellFormed := by
  rcases press_memory_cases hk c with ⟨m, heq⟩ | heq
  · rw [heq]
    exact h.congr rfl rfl rfl
  · rw [heq]
    exact h.fail

/-- Every key keeps the invariant, if the characters are such as are typed. -/
theorem WellFormed.press (h : c.WellFormed) {k : Key} (hk : ∀ ch, k = .character ch → ch ∈ typedCharacters) :
    (c.press k).WellFormed := by
  cases k with
  | character ch => exact h.typeChar (hk ch rfl)
  | point => exact h.typePoint
  | sign => exact h.withSign
  | clearAll => exact h.show rfl presentable_blank
  | clearEntry => exact h.show rfl presentable_blank
  | backspace => exact h.backspace
  | equals =>
    refine h.answer fun t ht => ?_
    obtain ⟨v, -, rfl⟩ := Compute.resultText_eq_ok.1 ht
    exact presentable_fitted v _
  | task task =>
    refine h.answer fun t ht => ?_
    obtain ⟨v, -, rfl⟩ := Compute.Task.resultText_eq_ok.1 ht
    exact presentable_fitted v _
  | constant k => exact h.show rfl (presentable_natural _)
  | memoryRecall =>
    simp only [Calculator.press, memoryText?]
    cases c.memory with
    | none => exact h
    | some m => exact h.show rfl (presentable_fitted m _)
  | memoryStore | memoryClear | memoryAdd | memorySubtract => exact h.press_memory (by decide)
  | clearHistory => exact h.congr rfl rfl rfl

theorem WellFormed.set (h : c.WellFormed) (s : Setting) : (c.set s).WellFormed :=
  ⟨h.ne_nil, h.point, h.capital, h.settings.set s⟩

/-- **What every calculator shows.** After any keys and changes of settings, the characters being such as are typed:
the display is not empty and has at most one point on it; an error on it is replaced by the next character; and the
settings are within their limits. -/
theorem wellFormed_run (inputs : List Input)
    (htyped : ∀ ch, .key (.character ch) ∈ inputs → ch ∈ typedCharacters) :
    let c := run {} inputs
    c.display ≠ [] ∧ c.display.count '.' ≤ 1 ∧ (c.display = errorText → c.isDone = true) ∧
      (6 ≤ c.settings.width ∧ c.settings.width ≤ 20) ∧ (1 ≤ c.settings.steps ∧ c.settings.steps ≤ Expr.maxSteps) ∧
      c.settings.point.isFinite = true ∧ c.settings.low.isFinite = true ∧ c.settings.high.isFinite = true := by
  have hrun : (run {} inputs).WellFormed := by
    refine run_invariant WellFormed (fun c i hi hc => ?_) wellFormed_start
    cases i with
    | key k => exact hc.press fun ch hk => htyped ch (hk ▸ hi)
    | setting s => exact hc.set s
  obtain ⟨hne, hpoint, hcapital, hwidth, hsteps, hfinite, hlow, hhigh⟩ := hrun
  refine ⟨hne, hpoint, fun herror => hcapital ?_, hwidth, hsteps, hfinite, hlow, hhigh⟩
  rw [herror]
  decide

/-- The error of a division by zero, and a width below the least one. -/
theorem wellFormed_run_division :
    let c := run {} [.key .point, .key (.character '5'), .key (.character '/'), .key (.character '0'), .key .equals,
      .setting (.width 3)]
    c.display = errorText ∧
      (c.display ≠ [] ∧ c.display.count '.' ≤ 1 ∧ (c.display = errorText → c.isDone = true) ∧
        (6 ≤ c.settings.width ∧ c.settings.width ≤ 20) ∧ (1 ≤ c.settings.steps ∧ c.settings.steps ≤ Expr.maxSteps) ∧
        c.settings.point.isFinite = true ∧ c.settings.low.isFinite = true ∧ c.settings.high.isFinite = true) := by
  refine ⟨by decide +kernel, wellFormed_run _ fun ch h => ?_⟩
  simp only [List.mem_cons, Input.key.injEq, Key.character.injEq, reduceCtorEq, List.not_mem_nil, or_false,
    false_or] at h
  rcases h with rfl | rfl | rfl
  · decide
  · decide
  · decide

end Calculator

end PocketCalc
