import PocketCalc.Numeral.Printer

/-!
# The range of a graph

`Range.fault?` says why a range cannot be drawn, if it cannot: its ends are not finite, or not in order, or
it has too few points or too many.
-/

namespace PocketCalc

/-- The range over which a curve is drawn, and the number of its points. -/
structure Range where
  low : Binary64 := -10
  high : Binary64 := 10
  points : Nat := 100
deriving DecidableEq

/-- Why a range cannot be drawn. -/
inductive RangeError where
  /-- An end is not finite. -/
  | unbounded
  /-- The lower end is not below the upper end. -/
  | reversed (low high : Binary64)
  | tooFew (points : Nat)
  | tooMany (points : Nat)
deriving DecidableEq

namespace Range

/-- The least number of points. -/
def minPoints : Nat := 2

/-- The greatest number of points. -/
def maxPoints : Nat := 10000

/-- Why the range cannot be drawn. -/
def fault? (r : Range) : Option RangeError :=
  if !r.low.isFinite || !r.high.isFinite then some .unbounded
  else if r.high.le r.low then some (.reversed r.low r.high)
  else if r.points < minPoints then some (.tooFew r.points)
  else if maxPoints < r.points then some (.tooMany r.points)
  else none

/-- Both ranges are the same, by the equality of numbers. -/
def same (r s : Range) : Bool := r.low.eq s.low && r.high.eq s.high && r.points = s.points

end Range

/-- The message of an error. -/
def RangeError.message : RangeError → Text
  | .unbounded => "bornes non finies".toList
  | .reversed low high =>
    "min (".toList ++ Numeral.plain low ++ ") doit être < max (".toList ++ Numeral.plain high ++ [')']
  | .tooFew n => "au moins 2 points requis (reçu ".toList ++ Nat.toDigits 10 n ++ [')']
  | .tooMany n =>
    "trop de points: ".toList ++ Nat.toDigits 10 n ++ " (max ".toList ++
      Nat.toDigits 10 Range.maxPoints ++ [')']

end PocketCalc
