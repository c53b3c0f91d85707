import Mathlib.Data.List.Basic
import PocketCalc.Proofs.Calculator.Run
import PocketCalc.Window.Frame

/-!
# Events of one frame, and frames of one event

* `Event.presses` — the keys of an event, an Escape as the key that clears the entry;
* `escapeFirst` — the events of a frame in the order in which they take effect;
* `Toolkit.Lawful`, `Toolkit.standard_lawful` — what is relied on of the fields, and that the standard ones do so;
* `settle_settle`, `settle_calculator` — what has been shown is shown as it is, and whatever the calculator is;
* `frame_eq`, `frames_eq` — without the focus, a frame and frames of one event press keys;
* `pressAll_escapeFirst` — the order makes no difference where no Escape comes after an event with keys;
* `frame_eq_frames` — so a frame is as good as frames of one event, but for an Escape behind such an event.
-/

namespace PocketCalc

variable {T : Toolkit} {w : Window} {e : Event} {events : List Event} {k : Key} {r : Range}

/-- The keys of the calculator for an event, where an Escape clears the entry. -/
def Event.presses : Event → List Key
  | .escape => [.clearEntry]
  | e => e.keys

/-- Some events, with one Escape before all others if there is any. -/
def escapeFirst (events : List Event) : List Event :=
  if .escape ∈ events then .escape :: events.filter (· ≠ .escape) else events

namespace Window

/-- The window after frames of one event each. -/
def frames (w : Window) (events : List Event) (T : Toolkit := .standard) : Window :=
  events.foldl (fun w e => w.frame [e] T) w

/-- The window with another calculator. -/
def withCalculator (w : Window) (c : Calculator) : Window := { w with calculator := c }

end Window

/-! ## Keys of events -/

theorem Event.presses_of_ne (h : e ≠ .escape) : e.presses = e.keys := by
  cases e with
  | escape => exact absurd rfl h
  | _ => rfl

theorem flatMap_presses (h : .escape ∉ events) : events.flatMap Event.presses = events.flatMap Event.keys :=
  List.flatMap_congr fun _ he => Event.presses_of_ne fun hescape => h (hescape ▸ he)

theorem flatMap_keys_filter (events : List Event) :
    (events.filter (· ≠ .escape)).flatMap Event.keys = events.flatMap Event.keys := by
  induction events with
  | nil => rfl
  | cons e events ih =>
    rw [List.filter_cons, List.flatMap_cons]
    split
    next => rw [List.flatMap_cons, ih]
    next h =>
      obtain rfl : e = .escape := by simpa using h
      exact ih

theorem escapeFirst_singleton (e : Event) : escapeFirst [e] = [e] := by cases e <;> rfl

/-- The events in the order of a frame have the key of an Escape, if there is any, and then those of the others. -/
theorem flatMap_escapeFirst (events : List Event) :
    (escapeFirst events).flatMap Event.presses =
      (if .escape ∈ events then [.clearEntry] else []) ++ events.flatMap Event.keys := by
  unfold escapeFirst
  split
  next =>
    have hothers : .escape ∉ events.filter (· ≠ .escape) := by simp
    rw [List.flatMap_cons, flatMap_presses hothers, flatMap_keys_filter]
    rfl
  next h => rw [flatMap_presses h, List.nil_append]

namespace Calculator

/-- No event changes the memory or the settings. -/
theorem press_of_mem_presses (h : k ∈ e.presses) (c : Calculator) :
    (c.press k).memory = c.memory ∧ (c.press k).settings = c.settings := by
  cases e with
  | text t =>
    obtain ⟨ch, -, hkey⟩ := List.mem_filterMap.1 h
    unfold keyOfChar? at hkey
    split at hkey
    next =>
      obtain rfl : .point = k := Option.some.inj hkey
      rw [press, typePoint]
      repeat' split
      all_goals exact ⟨rfl, rfl⟩
    next =>
      split at hkey
      next =>
        obtain rfl : .character ch = k := Option.some.inj hkey
        rw [press, typeChar]
        split
        all_goals exact ⟨rfl, rfl⟩
      next => cases hkey
  | enter =>
    obtain rfl : k = .equals := List.mem_singleton.1 h
    rcases c.answer_cases c.display .equals (Compute.resultText c.display c.settings.width) with
      ⟨t, -, heq⟩ | ⟨err, -, heq⟩
    · rw [press, heq]
      exact ⟨rfl, rfl⟩
    · rw [press, heq]
      exact ⟨rfl, rfl⟩
  | backspace =>
    obtain rfl : k = .backspace := List.mem_singleton.1 h
    exact ⟨rfl, rfl⟩
  | escape =>
    obtain rfl : k = .clearEntry := List.mem_singleton.1 h
    exact ⟨rfl, rfl⟩
  | other => cases h

/-- No events change the memory or the settings. -/
theorem pressAll_flatMap_presses (events : List Event) (c : Calculator) :
    (c.pressAll (events.flatMap Event.presses)).memory = c.memory ∧
      (c.pressAll (events.flatMap Event.presses)).settings = c.settings := by
  rw [pressAll_eq_run]
  refine run_invariant (fun c' => c'.memory = c.memory ∧ c'.settings = c.settings) (fun c' i hi hc' => ?_) ⟨rfl, rfl⟩
  obtain ⟨k, hk, rfl⟩ := List.mem_map.1 hi
  obtain ⟨e, -, hke⟩ := List.mem_flatMap.1 hk
  obtain ⟨hmemory, hsettings⟩ := press_of_mem_presses hke c'
  exact ⟨hmemory.trans hc'.1, hsettings.trans hc'.2⟩

/-- **An Escape that comes first makes no difference where none comes after an event with keys.** -/
theorem pressAll_escapeFirst (h : events.Pairwise fun e f => f = .escape → e.keys = []) (c : Calculator) :
    c.pressAll ((escapeFirst events).flatMap Event.presses) = c.pressAll (events.flatMap Event.presses) := by
  induction events generalizing c with
  | nil => rfl
  | cons e events ih =>
    obtain ⟨hbehind, hrest⟩ := List.pairwise_cons.1 h
    have ih := ih hrest
    simp only [flatMap_escapeFirst] at ih ⊢
    rw [List.flatMap_cons, List.flatMap_cons, pressAll_append c e.presses, ← ih]
    by_cases hmem : .escape ∈ events
    · -- the first event has no keys, or it is an Escape itself; the entry is cleared once or twice
      have hkeys : e.keys = [] := hbehind .escape hmem rfl
      rw [if_pos hmem, if_pos (List.mem_cons_of_mem _ hmem), hkeys]
      by_cases he : e = .escape
      · rw [he]
        rfl
      · rw [Event.presses_of_ne he, hkeys]
        rfl
    · rw [if_neg hmem]
      by_cases he : e = .escape
      · rw [he, if_pos (List.mem_cons_self ..)]
        rfl
      · have hnot : .escape ∉ e :: events := fun hor => (List.mem_cons.1 hor).elim (fun heq => he heq.symm) hmem
        rw [if_neg hnot, Event.presses_of_ne he]
        exact pressAll_append c e.keys _

end Calculator

/-! ## What the panels show -/

/-- What is relied on of a toolkit. -/
structure Toolkit.Lawful (T : Toolkit) : Prop where
  /-- A number that has been shown is shown as it is. -/
  number_number : ∀ v, T.number (T.number v) = T.number v
  /-- So is a whole number. -/
  whole_whole : ∀ low high n, T.whole low high (T.whole low high n) = T.whole low high n
  /-- A field without the focus does not get it by being left. -/
  leave_none : T.leave none = none

theorem Binary64.isNaN_shown (v : Binary64) : v.shown.isNaN = false := by
  unfold shown
  split
  next =>
    split
    · decide +kernel
    · decide +kernel
  next h => exact Bool.eq_false_iff.2 h

theorem Toolkit.standard_lawful : Toolkit.standard.Lawful where
  number_number v := if_neg (Bool.eq_false_iff.1 v.isNaN_shown)
  whole_whole low high n := by
    show max low (min (max low (min n high)) high) = max low (min n high)
    omega
  leave_none := rfl

theorem Range.shown_shown (hT : T.Lawful) (r : Range) : (r.shown T).shown T = r.shown T := by
  simp only [Range.shown, hT.number_number, hT.whole_whole]

namespace Window

theorem setRange_of_same (h : r.same w.range = true) : w.setRange r = w := if_pos h

@[simp] theorem showsGraph_draw (w : Window) : w.draw.showsGraph = w.showsGraph := by
  unfold draw
  split <;> rfl

@[simp] theorem range_draw (w : Window) : w.draw.range = w.range := by
  unfold draw
  split <;> rfl

@[simp] theorem caret_draw (w : Window) : w.draw.caret = w.caret := by
  unfold draw
  split <;> rfl

theorem draw_draw (w : Window) : w.draw.draw = w.draw := by
  cases h : w.range.fault? with
  | none => simp only [draw, h]
  | some err => simp only [draw, h]

theorem settle_of_open (hopen : w.showsGraph = true) : w.settle T = w.setRange (w.range.shown T) := if_pos hopen

/-- Without the focus a closed graph is left as it is. -/
theorem settle_of_closed (hT : T.Lawful) (h : w.caret = none) (hclosed : ¬ w.showsGraph = true) : w.settle T = w := by
  rw [settle, if_neg hclosed, h, hT.leave_none, ← h]

/-- A graph that is drawn over a range as it is shown is not changed by drawing it once more. -/
theorem settle_of_draw (hopen : w.showsGraph = true) (hrange : w.range.shown T = w.range) (hdraw : w.draw = w) :
    w.settle T = w := by
  rw [settle_of_open hopen, hrange, setRange]
  split
  · rfl
  · exact hdraw

/-- **What has been shown is shown as it is.** -/
theorem settle_settle (hT : T.Lawful) (h : w.caret = none) : (w.settle T).settle T = w.settle T := by
  by_cases hopen : w.showsGraph = true
  · by_cases hsame : (w.range.shown T).same w.range = true
    · have hsettle : w.settle T = w := (settle_of_open hopen).trans (setRange_of_same hsame)
      rw [hsettle, hsettle]
    · have hsettle : w.settle T = draw { w with range := w.range.shown T } := (settle_of_open hopen).trans (if_neg hsame)
      rw [hsettle]
      refine settle_of_draw ?_ ?_ (draw_draw _)
      · rwa [showsGraph_draw]
      · rw [range_draw]
        exact Range.shown_shown hT w.range
  · have hsettle : w.settle T = w := settle_of_closed hT h hopen
    rw [hsettle, hsettle]

theorem caret_settle (hT : T.Lawful) (h : w.caret = none) : (w.settle T).caret = none := by
  by_cases hopen : w.showsGraph = true
  · rw [settle_of_open hopen, setRange]
    split
    · exact h
    · rwa [caret_draw]
  · rwa [settle_of_closed hT h hopen]

/-- The panels are shown in the same way whatever the calculator is. -/
theorem settle_calculator (w : Window) (c : Calculator) :
    (w.withCalculator c).settle T = (w.settle T).withCalculator c := by
  unfold settle setRange draw withCalculator
  dsimp only
  repeat' split
  all_goals rfl

/-! ## Frames without the focus -/

/-- Without the focus, an Escape is a key of the calculator. -/
theorem escape_eq (hT : T.Lawful) (h : w.caret = none) : w.escape T = w.press .clearEntry := by
  rw [escape, h, hT.leave_none, ← h]

theorem listen_eq (h : w.caret = none) (events : List Event) : w.listen events T = w.type events := by rw [listen, h]

/-- **A frame presses the keys of its events, that of an Escape before all others.** -/
theorem frame_eq (hT : T.Lawful) (h : w.caret = none) (events : List Event) :
    w.frame events T =
      (w.settle T).withCalculator (w.calculator.pressAll ((escapeFirst events).flatMap Event.presses)) := by
  have hheard : (if .escape ∈ events then w.escape T else w).listen events T =
      w.withCalculator (w.calculator.pressAll ((escapeFirst events).flatMap Event.presses)) := by
    rw [flatMap_escapeFirst]
    split
    · have hcaret : (w.press .clearEntry).caret = none := h
      rw [escape_eq hT h, listen_eq hcaret]
      rfl
    · rw [listen_eq h, List.nil_append]
      rfl
  rw [← settle_calculator, ← hheard, frame, h]
  simp only [Option.isSome_none, Bool.and_false, Bool.false_and, Bool.false_eq_true, if_false]

theorem frames_cons (w : Window) (e : Event) (events : List Event) :
    w.frames (e :: events) T = (w.frame [e] T).frames events T := rfl

/-- **Frames of one event press the keys of the events in their order.** -/
theorem frames_eq (hT : T.Lawful) (h : w.caret = none) (hne : events ≠ []) :
    w.frames events T = (w.settle T).withCalculator (w.calculator.pressAll (events.flatMap Event.presses)) := by
  induction events generalizing w with
  | nil => exact absurd rfl hne
  | cons e events ih =>
    have hone : w.frame [e] T = (w.settle T).withCalculator (w.calculator.pressAll e.presses) := by
      rw [frame_eq hT h, escapeFirst_singleton, List.flatMap_singleton]
    rw [frames_cons, hone, List.flatMap_cons, Calculator.pressAll_append]
    cases events with
    | nil => rfl
    | cons e' events =>
      have hcaret : ((w.settle T).withCalculator (w.calculator.pressAll e.presses)).caret = none := caret_settle hT h
      rw [ih hcaret (List.cons_ne_nil _ _), settle_calculator, settle_settle hT h]
      rfl

/-- **A frame is as good as frames of one event each, but for an Escape behind other events.** Where no field has the
focus, a frame of some events leaves what frames of one event each leave, with the Escape in the first of them; and in
the order of the events, if no Escape comes after an event with keys. If one does, the two still leave the same panels,
graph, memory and settings. All of this holds with any toolkit whose fields show what they have shown as it is. -/
theorem frame_eq_frames (hT : T.Lawful) (h : w.caret = none) (hne : events ≠ []) :
    w.frame events T = w.frames (escapeFirst events) T ∧
      (events.Pairwise (fun e f => f = .escape → e.keys = []) → w.frame events T = w.frames events T) ∧
      ∃ c, w.frame events T = (w.frames events T).withCalculator c ∧
        c.memory = (w.frames events T).calculator.memory ∧ c.settings = (w.frames events T).calculator.settings := by
  have hfirst : escapeFirst events ≠ [] := by
    unfold escapeFirst
    split
    · exact List.cons_ne_nil _ _
    · exact hne
  obtain ⟨hmemory, hsettings⟩ := Calculator.pressAll_flatMap_presses (escapeFirst events) w.calculator
  obtain ⟨hmemory', hsettings'⟩ := Calculator.pressAll_flatMap_presses events w.calculator
  rw [frame_eq hT h, frames_eq hT h hfirst, frames_eq hT h hne]
  refine ⟨rfl, fun hpairs => ?_, _, rfl, hmemory.trans hmemory'.symm, hsettings.trans hsettings'.symm⟩
  rw [Calculator.pressAll_escapeFirst hpairs]

/-- Two Escapes, and then a sum that is computed, with a range that is moved into its limits. -/
theorem frame_eq_frames_sum :
    let w : Window := { showsGraph := true, range := { points := 1 } }
    let events : List Event := [.escape, .other, .escape, .text "1+1".toList, .enter]
    Toolkit.standard.Lawful ∧ w.caret = none ∧ events ≠ [] ∧
      events.Pairwise (fun e f => f = .escape → e.keys = []) ∧
      w.frame events = w.frames (escapeFirst events) ∧ w.frame events = w.frames events := by
  intro w events
  have hne : events ≠ [] := by decide
  have hpairs : events.Pairwise (fun e f => f = .escape → e.keys = []) := by decide
  obtain ⟨hfirst, horder, -⟩ := frame_eq_frames (w := w) Toolkit.standard_lawful rfl hne
  exact ⟨Toolkit.standard_lawful, rfl, hne, hpairs, hfirst, horder hpairs⟩

/-- An Enter and then an Escape behind `1+1`: in one frame the Escape takes `1+1` away before it is computed, and the
history has the computation of the empty display; one after the other, `1+1` is computed and the result is cleared. -/
theorem frame_ne_frames :
    let w : Window := { calculator := { display := "1+1".toList, lastKey := .character } }
    w.caret = none ∧ w.frame [.enter, .escape] ≠ w.frames [.enter, .escape] ∧
      (w.frame [.enter, .escape]).calculator.history = ["0 = 0".toList] ∧
      (w.frames [.enter, .escape]).calculator.history = ["1+1 = 2".toList] := by
  decide +kernel

end Window

end PocketCalc
