import Mathlib.Data.List.Induction
import PocketCalc.Proofs.Calculator.Run
import PocketCalc.Window.Basic

/-!
# The panels, the range and the curve

* `Action`, `handle`, `run` — what can be done to the window, and the window after some actions;
* `graphTexts` — the texts that the field of the graph has had;
* `Consistent` — at most one panel is open, and the curve and the error are those of the range as it is now;
* `consistent_draw`, `Consistent.handle` — drawing makes the window consistent, and every action keeps it so;
* `consistent_run` — so the window is consistent after any actions.
-/

namespace PocketCalc

/-- What can be done to the window. -/
inductive Action where
  /-- A key or a setting of the calculator. -/
  | calculator (i : Input)
  | toggleHistory
  | toggleGraph
  /-- Another text in the field of the graph; nothing is drawn. -/
  | write (t : Text)
  | draw
  | drawDisplay
  | setRange (r : Range)
deriving DecidableEq

namespace Window

/-- The window after an action. -/
def handle (w : Window) : Action → Window
  | .calculator (.key k) => w.press k
  | .calculator (.setting s) => w.set s
  | .toggleHistory => w.toggleHistory
  | .toggleGraph => w.toggleGraph
  | .write t => { w with graphText := t }
  | .draw => w.draw
  | .drawDisplay => w.drawDisplay
  | .setRange r => w.setRange r

/-- The window after some actions. -/
def run (w : Window) (actions : List Action) : Window := actions.foldl handle w

/-- The texts that the field of the graph has had, from the first one on. -/
def graphTexts (w : Window) : List Action → List Text
  | [] => [w.graphText]
  | a :: actions => w.graphText :: graphTexts (w.handle a) actions

/-- The window is consistent, where the field of the graph has had some texts. -/
structure Consistent (texts : List Text) (w : Window) : Prop where
  /-- Not both panels are open. -/
  panels : ¬ (w.showsHistory = true ∧ w.showsGraph = true)
  /-- The error is what is wrong with the range. -/
  rangeError : w.rangeError = w.range.fault?
  /-- A curve is that of one of the texts over the range, with which nothing is wrong. -/
  curve : ∀ c, w.curve = some c → w.range.fault? = none ∧ ∃ t ∈ texts, c = Curve.ofText t w.range
  /-- With the graph open there is a curve or an error, and not both. -/
  shown : w.showsGraph = true → w.curve.isSome = !w.rangeError.isSome

variable {w : Window} {texts texts' : List Text} {a : Action}

theorem run_concat (w : Window) (actions : List Action) (a : Action) :
    w.run (actions ++ [a]) = (w.run actions).handle a := by
  simp [run]

theorem graphTexts_concat (w : Window) (actions : List Action) (a : Action) :
    w.graphTexts (actions ++ [a]) = w.graphTexts actions ++ [((w.run actions).handle a).graphText] := by
  induction actions generalizing w with
  | nil => rfl
  | cons b actions ih => exact congrArg (w.graphText :: ·) (ih (w.handle b))

/-- The text in the field is the last one that it has had. -/
theorem graphText_mem (w : Window) (actions : List Action) : (w.run actions).graphText ∈ w.graphTexts actions := by
  induction actions generalizing w with
  | nil => exact List.mem_singleton_self _
  | cons a actions ih => exact List.mem_cons_of_mem _ (ih (w.handle a))

/-! ## Drawing -/

@[simp] theorem graphText_draw : w.draw.graphText = w.graphText := by
  unfold draw
  split <;> rfl

/-- Drawing makes the window consistent. -/
theorem consistent_draw (hpanels : ¬ (w.showsHistory = true ∧ w.showsGraph = true)) (htext : w.graphText ∈ texts) :
    Consistent texts w.draw := by
  unfold draw
  split
  next hfault =>
    exact ⟨hpanels, hfault.symm, fun c hc => ⟨hfault, w.graphText, htext, (Option.some.inj hc).symm⟩, fun _ => rfl⟩
  next err hfault => exact ⟨hpanels, hfault.symm, nofun, fun _ => rfl⟩

/-! ## Actions -/

theorem Consistent.mono (h : Consistent texts w) (hsub : texts ⊆ texts') : Consistent texts' w where
  panels := h.panels
  rangeError := h.rangeError
  curve c hc := by
    obtain ⟨hfault, t, ht, hcurve⟩ := h.curve c hc
    exact ⟨hfault, t, hsub ht, hcurve⟩
  shown := h.shown

/-- Opening the history closes the graph, and closing it opens nothing. -/
theorem Consistent.toggleHistory (h : Consistent texts w) : Consistent texts w.toggleHistory where
  panels := by
    rintro ⟨hhistory, hgraph⟩
    have hopen : w.showsHistory = true := (Bool.and_eq_true_iff.1 hgraph).2
    rw [Window.toggleHistory, hopen] at hhistory
    cases hhistory
  rangeError := h.rangeError
  curve := h.curve
  shown hgraph := h.shown (Bool.and_eq_true_iff.1 hgraph).1

/-- Opening the graph closes the history and draws; closing it keeps the curve. -/
theorem Consistent.toggleGraph (h : Consistent texts w) (htext : w.toggleGraph.graphText ∈ texts) :
    Consistent texts w.toggleGraph := by
  unfold Window.toggleGraph at htext ⊢
  split at htext
  next hopen =>
    rw [if_pos hopen]
    exact ⟨fun hboth => Bool.false_ne_true hboth.2, h.rangeError, h.curve,
      fun hgraph => absurd hgraph Bool.false_ne_true⟩
  next hclosed =>
    rw [if_neg hclosed]
    rw [graphText_draw] at htext
    exact consistent_draw (fun hboth => Bool.false_ne_true hboth.1) htext

/-- A range that is the same by the equality of numbers changes nothing; another one is drawn. -/
theorem Consistent.setRange (h : Consistent texts w) (htext : w.graphText ∈ texts) (r : Range) :
    Consistent texts (w.setRange r) := by
  unfold Window.setRange
  split
  · exact h
  · exact consistent_draw h.panels htext

/-- **Every action keeps the window consistent.** -/
theorem Consistent.handle (h : Consistent texts w) (htext : w.graphText ∈ texts) (a : Action) :
    Consistent (texts ++ [(w.handle a).graphText]) (w.handle a) := by
  have hnew : (w.handle a).graphText ∈ texts ++ [(w.handle a).graphText] := by simp
  have hmono := h.mono (List.subset_append_left texts [(w.handle a).graphText])
  cases a with
  | calculator i => cases i <;> exact ⟨hmono.panels, hmono.rangeError, hmono.curve, hmono.shown⟩
  | write t => exact ⟨hmono.panels, hmono.rangeError, hmono.curve, hmono.shown⟩
  | toggleHistory => exact hmono.toggleHistory
  | toggleGraph => exact hmono.toggleGraph hnew
  | draw => exact consistent_draw h.panels (List.mem_append_left _ htext)
  | drawDisplay =>
    have hdisplay : (w.handle .drawDisplay).graphText = w.calculator.display := graphText_draw
    rw [hdisplay] at hnew ⊢
    exact consistent_draw h.panels hnew
  | setRange r => exact hmono.setRange (List.mem_append_left _ htext) r

/-- Before any action nothing is open or drawn, and nothing is wrong with the range. -/
theorem consistent_start : Consistent [Curve.fallbackText] {} where
  panels := nofun
  rangeError := rfl
  curve := nofun
  shown := nofun

/-- **After any actions the window is consistent.** Not both panels are open. The error is what is wrong with the range
as it is, and there is none exactly if nothing is. A curve is there only if nothing is wrong with the range, and it is
the curve over that range of a text that the field has had. While the graph is open, there is either a curve or an
error. -/
theorem consistent_run (actions : List Action) :
    Consistent (graphTexts {} actions) (run {} actions) := by
  induction actions using List.reverseRecOn with
  | nil => exact consistent_start
  | append_singleton actions a ih =>
    rw [run_concat, graphTexts_concat]
    exact ih.handle (graphText_mem {} actions) a

end Window

end PocketCalc
