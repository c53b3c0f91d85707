import PocketCalc.Window.Button
import PocketCalc.Window.Toolkit

/-!
# Frames

The window takes its input in frames: some events at a time, and after them the panels are shown once. What its
fields do with events and numbers is up to a toolkit, the standard one if no other is named.

* `keyOfChar?` — the keys of typed characters;
* `frame` — a frame of keyboard events. An Escape comes first, wherever it stands among the events; then the
  events go to the calculator, or to the field of the graph if that has the focus;
* `settle` — what showing the panels does: the range becomes what its fields show;
* `click`, `focusField` — frames of the mouse, which take the focus away or give it to the field.
-/

namespace PocketCalc

/-- The characters of the keyboard that are shown as they are. -/
def typedCharacters : Text := "0123456789+-*/^%()x".toList

/-- The key of a typed character; other characters have none. -/
def keyOfChar? (c : Char) : Option Key :=
  if c = '.' ∨ c = ',' then some .point
  else if c ∈ typedCharacters then some (.character c)
  else none

/-- The keys of the calculator for an event. -/
def Event.keys : Event → List Key
  | .text t => t.filterMap keyOfChar?
  | .enter => [.equals]
  | .backspace => [.backspace]
  | .escape | .other => []

/-- The range as its fields show it. -/
def Range.shown (r : Range) (T : Toolkit := .standard) : Range :=
  ⟨T.number r.low, T.number r.high, T.whole minPoints maxPoints r.points⟩

namespace Window

/-- Showing the panels gives the graph the range that its fields show; a field that is not shown is left. -/
def settle (w : Window) (T : Toolkit := .standard) : Window :=
  if w.showsGraph then w.setRange (w.range.shown T) else { w with caret := T.leave w.caret }

/-- An Escape leaves the field and clears the entry. -/
def escape (w : Window) (T : Toolkit := .standard) : Window :=
  { w with caret := T.leave w.caret }.press .clearEntry

/-- The events, as keys of the calculator. -/
def type (w : Window) (events : List Event) : Window :=
  { w with calculator := w.calculator.pressAll (events.flatMap Event.keys) }

/-- The events, as input of the field of the graph. -/
def editGraph (w : Window) (caret : Nat) (events : List Event) (T : Toolkit := .standard) : Window :=
  if w.showsGraph then
    let edited := T.edit w.graphText caret events
    { w with graphText := edited.1, caret := edited.2 }
  else w

/-- The events, as input of the field if that has the focus, and as keys of the calculator if not. -/
def listen (w : Window) (events : List Event) (T : Toolkit := .standard) : Window :=
  match w.caret with
  | some caret => w.editGraph caret events T
  | none => w.type events

/-- A frame of keyboard events. An Enter that comes with the loss of the focus draws. -/
def frame (w : Window) (events : List Event) (T : Toolkit := .standard) : Window :=
  let heard := (if .escape ∈ events then w.escape T else w).listen events T
  let isLeft := w.showsGraph && w.caret.isSome && heard.caret.isNone
  (if isLeft && .enter ∈ events then heard.draw else heard).settle T

/-- A click on a button: the field is left as the mouse goes down, and the button acts as it comes up. -/
def click (w : Window) (b : Button) (T : Toolkit := .standard) : Window :=
  let w := w.settle T
  ({ w with caret := T.leave w.caret }.act b).settle T

/-- A click at the end of the field of the graph, if that is shown. -/
def focusField (w : Window) (T : Toolkit := .standard) : Window :=
  let w := w.settle T
  if w.showsGraph then { w with caret := some w.graphText.length } else w

end Window

end PocketCalc
