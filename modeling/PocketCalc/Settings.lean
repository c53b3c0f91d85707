import PocketCalc.Expr.Integral

/-!
# Settings

How wide a result may be, where a derivative is evaluated, and over what and how finely an integral is
taken. `Settings.set` changes one of them and keeps each within its limits.
-/

namespace PocketCalc

/-- The settings of the calculator. -/
structure Settings where
  /-- The width of a result, in characters. -/
  width : Nat := 10
  /-- Where a derivative is evaluated. -/
  point : Binary64 := 1
  /-- The lower end of integrals. -/
  low : Binary64 := 0
  /-- The upper end of integrals. -/
  high : Binary64 := 1
  /-- The number of steps of integrals. -/
  steps : Nat := 100
deriving DecidableEq

/-- A change of one setting. -/
inductive Setting where
  | width (n : Nat)
  | steps (n : Nat)
  | point (v : Binary64)
  | interval (low high : Binary64)
deriving DecidableEq

namespace Settings

/-- The least width. -/
def minWidth : Nat := 6

/-- The greatest width. -/
def maxWidth : Nat := 20

/-- The settings after a change. A width and a number of steps are moved into their limits; a point or an
interval that is not finite is ignored. -/
def set (s : Settings) : Setting → Settings
  | .width n => { s with width := max minWidth (min n maxWidth) }
  | .steps n => { s with steps := Expr.clampSteps n }
  | .point v => if v.isFinite then { s with point := v } else s
  | .interval low high => if low.isFinite && high.isFinite then { s with low, high } else s

end Settings

end PocketCalc
