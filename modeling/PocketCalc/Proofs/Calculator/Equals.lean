import PocketCalc.Proofs.Calculator.Run
import PocketCalc.Proofs.Numeral.Stable

/-!
# Pressing the equals key again

* `repeatEquals` — the calculator after the equals key was pressed a number of times;
* `press_equals_of_value` — the equals key shows the text of the value of the display;
* `equals_settles` — once the equals key was pressed, pressing it again keeps the value of the display, and from the
  second time on the display itself.
-/

namespace PocketCalc.Calculator

open Numeral Binary64

variable {c : Calculator} {v w : Binary64} {width : ℕ}

/-- The calculator after the equals key was pressed a number of times. -/
def repeatEquals (c : Calculator) (n : ℕ) : Calculator := c.run (List.replicate n (.key .equals))

theorem repeatEquals_succ (c : Calculator) (n : ℕ) : c.repeatEquals (n + 1) = (c.press .equals).repeatEquals n := rfl

/-- The equals key shows the text of the value of the display, and changes no settings. -/
theorem press_equals_of_value (h : Compute.valueOf c.display = .ok v) :
    (c.press .equals).display = fitted v c.settings.width ∧ (c.press .equals).settings = c.settings := by
  have hresult : Compute.resultText c.display c.settings.width = .ok (fitted v c.settings.width) :=
    Compute.resultText_eq_ok.2 ⟨v, h, rfl⟩
  show (c.answer c.display .equals _).display = _ ∧ (c.answer c.display .equals _).settings = _
  rw [hresult]
  exact ⟨rfl, rfl⟩

/-- A display that is the text of its value is kept by the equals key. -/
theorem repeatEquals_of_fixpoint (hvalue : Compute.valueOf c.display = .ok w)
    (hdisplay : c.display = fitted w c.settings.width) (n : ℕ) : (c.repeatEquals n).display = c.display := by
  induction n generalizing c with
  | zero => rfl
  | succ n ih =>
    obtain ⟨hpress, hsettings⟩ := press_equals_of_value hvalue
    rw [← hdisplay] at hpress
    rw [repeatEquals_succ, ih (by rwa [hpress]) (by rw [hpress, hsettings, hdisplay]), hpress]

/-- **A result that is evaluated again does not drift.** The text of a finite number has a value, and the text of that
value has an equal one. So after the equals key was pressed once, the display keeps its value, however often the key is
pressed, and from the second time on the display is the same text. -/
theorem equals_settles (h : v.isFinite = true) (hwidth : Settings.minWidth ≤ width) :
    ∃ w, Compute.valueOf (fitted v width) = .ok w ∧
      (∃ w', Compute.valueOf (fitted w width) = .ok w' ∧ w'.eq w = true) ∧
      ∀ c : Calculator, c.settings.width = width → Compute.valueOf c.display = .ok v → ∀ n,
        (∃ u, Compute.valueOf (c.repeatEquals (n + 1)).display = .ok u ∧ u.eq w = true) ∧
          (c.repeatEquals (n + 2)).display = fitted w width := by
  have hfive : 5 ≤ width := Nat.le_trans (by decide) hwidth
  have hone : 1 ≤ width := Nat.le_trans (by decide) hfive
  obtain ⟨w, hvalue, hsettled⟩ := exists_settled h hfive
  have hfinite : w.isFinite = true := by
    obtain ⟨w', hfinite, -, hvalue'⟩ := (isFiniteNumeral_fitted h width).exists_value
    rw [hvalue] at hvalue'
    exact Except.ok.inj hvalue' ▸ hfinite
  obtain ⟨w', hvalue', heq, hfixpoint⟩ := hsettled.exists_value hfinite hone
  refine ⟨w, hvalue, ⟨w', hvalue', heq⟩, fun c hc hv n => ?_⟩
  obtain ⟨hfirst, hsettings⟩ := press_equals_of_value hv
  rw [hc] at hfirst
  obtain ⟨hsecond, hsettings'⟩ := press_equals_of_value (hfirst ▸ hvalue)
  rw [hsettings, hc] at hsecond
  -- the second display is the text of its value
  have hrest (n : ℕ) : (c.repeatEquals (n + 2)).display = fitted w width := by
    rw [repeatEquals_succ, repeatEquals_succ, repeatEquals_of_fixpoint (w := w'), hsecond]
    · rwa [hsecond]
    · rw [hsecond, hsettings', hsettings, hc, hfixpoint]
  refine ⟨?_, hrest n⟩
  cases n with
  | zero =>
    refine ⟨w, ?_, eq_iff.2 ⟨.refl w, (isFinite_iff.1 hfinite).1⟩⟩
    rw [repeatEquals_succ]
    show Compute.valueOf (c.press .equals).display = _
    rw [hfirst, hvalue]
  | succ n => exact ⟨w', by rw [hrest n, hvalue'], heq⟩

/-- The number `9.9999999999` in ten characters: the first text has a carry, the second one its value, and there it
stays. -/
theorem equals_settles_carry :
    let c : Calculator := { display := "9.9999999999".toList }
    (c.repeatEquals 1).display = "10.0000000".toList ∧ ∀ n, (c.repeatEquals (n + 2)).display = "10".toList := by
  intro c
  have hv : Compute.valueOf c.display = .ok (Decimal.toBinary64 ⟨99999999999, -10⟩) := by decide +kernel
  obtain ⟨w, -, -, hpresses⟩ := equals_settles (v := Decimal.toBinary64 ⟨99999999999, -10⟩) (by decide +kernel)
    (show Settings.minWidth ≤ c.settings.width by decide)
  have hsecond : (c.repeatEquals 2).display = "10".toList := by decide +kernel
  refine ⟨by decide +kernel, fun n => ?_⟩
  rw [(hpresses c rfl hv n).2, ← (hpresses c rfl hv 0).2, hsecond]

end PocketCalc.Calculator
