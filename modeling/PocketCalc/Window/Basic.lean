import PocketCalc.Calculator.Basic
import PocketCalc.Graph.Curve

/-!
# The window

* `Window` — the calculator, the two panels below it, and the graph: its text, its range and its curve;
* the actions on it, all of them total. At most one of the two panels is open. A curve is drawn on demand,
  when the graph is opened, and when its range changes; a range that cannot be drawn has no curve.
-/

namespace PocketCalc

/-- The state of the window. -/
structure Window where
  calculator : Calculator := {}
  /-- The panel of the history is open. -/
  showsHistory : Bool := false
  /-- The panel of the graph is open. -/
  showsGraph : Bool := false
  /-- The text in the field of the graph. -/
  graphText : Text := Curve.fallbackText
  range : Range := {}
  curve : Option Curve := none
  /-- Why the range could not be drawn. -/
  rangeError : Option RangeError := none
  /-- Where typed text goes in the field of the graph, while the field has the focus. -/
  caret : Option Nat := none
deriving DecidableEq

/-- Parts of a text that make it look like something to draw. -/
def graphHints : List Text :=
  ["x".toList, "sin".toList, "cos".toList, "tan".toList, "log".toList, "exp".toList]

/-- The text looks like something to draw, and not like a number. Letters count in any case; no letter
but those of the English alphabet has a small form that completes one of the hints. -/
def looksLikeFunction (t : Text) : Bool :=
  graphHints.any fun hint => occursIn hint (t.map Char.toLower)

namespace Window

/-- The window after a key of the calculator. -/
def press (w : Window) (k : Key) : Window := { w with calculator := w.calculator.press k }

/-- The window after a change of a setting. -/
def set (w : Window) (s : Setting) : Window := { w with calculator := w.calculator.set s }

/-- Draws the curve, or says why the range cannot be drawn. -/
def draw (w : Window) : Window :=
  match w.range.fault? with
  | none => { w with rangeError := none, curve := some (Curve.ofText w.graphText w.range) }
  | some e => { w with rangeError := some e, curve := none }

/-- Opens or closes the history; opening it closes the graph. -/
def toggleHistory (w : Window) : Window :=
  { w with
    showsHistory := !w.showsHistory
    showsGraph := w.showsGraph && w.showsHistory }

/-- Opens or closes the graph. Opening it closes the history, takes over the display if that looks like
something to draw, and draws. -/
def toggleGraph (w : Window) : Window :=
  if w.showsGraph then { w with showsGraph := false }
  else
    draw { w with
      showsGraph := true
      showsHistory := false
      graphText :=
        if looksLikeFunction w.calculator.display then w.calculator.display else w.graphText }

/-- Draws what the display shows. -/
def drawDisplay (w : Window) : Window := draw { w with graphText := w.calculator.display }

/-- Changes the range and draws, if the range is another one. -/
def setRange (w : Window) (r : Range) : Window :=
  if r.same w.range then w else draw { w with range := r }

/-- The texts on the screen: whether there is a memory, the display, the memory; and with the history
open, its entries from the newest on, and the derivative of the display if it has one. -/
def screen (w : Window) : List Text :=
  let c := w.calculator
  [if c.memory.isSome then ['M'] else [' '], c.display] ++
    (c.memoryText?.map ("M = ".toList ++ ·)).toList ++
    if w.showsHistory then
      c.history.reverse ++
        match Compute.derivativeText c.display with
        | .ok d => ["d/dx(".toList ++ c.display ++ ") = ".toList ++ d]
        | .error _ => []
    else []

end Window

end PocketCalc
