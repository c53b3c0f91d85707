import PocketCalc.Formula.Parser
import PocketCalc.Expr.Evaluate
import PocketCalc.Graph.Range

/-!
# Curves

* `Range.grid` — the points of a range, from its lower end in equal steps;
* `sample` — the points of a formula over a range. A point at which the formula has no finite value is left
  out; the coordinates are rounded at the end;
* `Curve.ofText` — the curve of a text, or of a fallback if the text is no formula.
-/

namespace PocketCalc

/-- A point of a curve. -/
structure Point where
  x : Binary64
  y : Binary64
deriving DecidableEq

namespace Range

/-- The number of points that are drawn. -/
def count (r : Range) : Nat := min r.points maxPoints

/-- The distance of neighbouring points; a single point has none. -/
def step (r : Range) : Binary64 :=
  if 1 < r.count then (r.high - r.low) / .ofNat (r.count - 1) else 0

/-- The points of the range. -/
def grid (r : Range) : List Binary64 :=
  (List.range r.count).map fun i => r.low + .ofNat i * r.step

end Range

/-- The places that a horizontal coordinate is rounded to. -/
def placesOfX : Nat := 2

/-- The places that a vertical coordinate is rounded to. -/
def placesOfY : Nat := 4

/-- The point of a formula at `x`, if it has a finite value there. -/
def pointAt? (e : Formula) (x : Binary64) : Option Point :=
  match e.evaluate (some x) with
  | .ok y => if y.isFinite then some ⟨x.toPlaces placesOfX, y.toPlaces placesOfY⟩ else none
  | .error _ => none

/-- The points of a formula over a range. -/
def sample (e : Formula) (r : Range) : List Point := r.grid.filterMap (pointAt? e)

/-- A curve, with the text of its formula. -/
structure Curve where
  expression : Text
  /-- The text that was asked for is no formula. -/
  isFallback : Bool
  points : List Point
deriving DecidableEq

namespace Curve

/-- The text of the formula that is drawn instead of a text that is none. -/
def fallbackText : Text := "sin(x)".toList

/-- The formula that is drawn instead of a text that is none. -/
def fallback : Formula := .call .sin .x

/-- The curve of a text over a range. -/
def ofText (t : Text) (r : Range) : Curve :=
  match Formula.parse t with
  | .ok e => ⟨trim t, false, sample e r⟩
  | .error _ => ⟨fallbackText, true, sample fallback r⟩

end Curve

end PocketCalc
