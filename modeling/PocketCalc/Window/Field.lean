import PocketCalc.Window.Frame

/-!
# Numeric fields

* `Field` — the fields of the settings and of the range;
* `Window.enter` — the window after a text has been entered in a field. A text that makes no number there changes
  nothing.
-/

namespace PocketCalc

/-- The numeric fields. -/
inductive Field where
  | width | steps | point | low | high | graphLow | graphHigh | graphPoints
deriving DecidableEq

/-- The setting that a text in a field of the settings makes, or the range that one in a field of the range makes. -/
def Field.change? (w : Window) (t : Text) (T : Toolkit := .standard) : Field → Option (Setting ⊕ Range)
  | .width => (T.enterWhole? Settings.minWidth Settings.maxWidth t).map fun n => .inl (.width n)
  | .steps => (T.enterWhole? 1 Expr.maxSteps t).map fun n => .inl (.steps n)
  | .point => (T.enterNumber? t).map fun v => .inl (.point v)
  | .low => (T.enterNumber? t).map fun v => .inl (.interval v w.calculator.settings.high)
  | .high => (T.enterNumber? t).map fun v => .inl (.interval w.calculator.settings.low v)
  | .graphLow => (T.enterNumber? t).map fun v => .inr { w.range.shown T with low := v }
  | .graphHigh => (T.enterNumber? t).map fun v => .inr { w.range.shown T with high := v }
  | .graphPoints =>
    (T.enterWhole? Range.minPoints Range.maxPoints t).map fun n => .inr { w.range.shown T with points := n }

/-- The window after a text has been entered in a field. -/
def Window.enter (w : Window) (f : Field) (t : Text) (T : Toolkit := .standard) : Window :=
  let shown := w.settle T
  let w := { shown with caret := T.leave shown.caret }
  match f.change? w t T with
  | none => w.settle T
  | some (.inl s) => (w.set s).settle T
  | some (.inr r) => (w.setRange r).settle T

end PocketCalc
