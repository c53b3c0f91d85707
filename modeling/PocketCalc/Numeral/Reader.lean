import PocketCalc.Binary64.Basic
import PocketCalc.Decimal.Layout
import PocketCalc.Decimal.Rounding

/-!
# Texts as numbers

* `Decimal.toBinary64` — the number nearest to a decimal;
* `unsigned?` — digits with at most one point, and an optional exponent;
* `read?` — a signed number, an infinity or a NaN;
* `Binary64.toPlaces` — a number rounded to a number of places.
-/

namespace PocketCalc

/-- The number nearest to a decimal. -/
def Decimal.toBinary64 (d : Decimal) : Binary64 :=
  .ofFloat (Float.ofScientific d.digits (decide (d.exponent < 0)) d.exponent.natAbs)

/-- The number rounded to `places` digits after the point; it keeps its sign. What is not finite stays
as it is. -/
def Binary64.toPlaces (a : Binary64) (places : Nat) : Binary64 :=
  if !a.isFinite then a
  else
    let r := Decimal.toBinary64 ⟨Decimal.toPlaces a places, -places⟩
    if a.isNegative then -r else r

namespace Numeral

/-- One digit or more, and nothing else. -/
def digits? (t : Text) : Option Nat :=
  if t ≠ [] ∧ t.all Char.isDigit then some (Nat.ofDigitChars 10 t 0) else none

/-- The number of an exponent, which may have a sign. -/
def exponent? : Text → Option Int
  | '-' :: t => (digits? t).map fun n => -(n : Int)
  | '+' :: t => (digits? t).map fun n => (n : Int)
  | t => (digits? t).map fun n => (n : Int)

/-- The mark of an exponent. -/
def isExponentMark (c : Char) : Bool := c = 'e' || c = 'E'

/-- What follows the digits: nothing, or an exponent. -/
def ending? : Text → Option Int
  | [] => some 0
  | c :: t => if isExponentMark c then exponent? t else none

/-- The digits after a point at the front, and what follows them. -/
def afterPoint : Text → Text × Text
  | '.' :: t => (t.takeWhile Char.isDigit, t.dropWhile Char.isDigit)
  | t => ([], t)

/-- Digits with at most one point among them, and an optional exponent. -/
def unsigned? (t : Text) : Option Binary64 :=
  let whole := t.takeWhile Char.isDigit
  let places := afterPoint (t.dropWhile Char.isDigit)
  if whole = [] ∧ places.1 = [] then none
  else (ending? places.2).map fun e =>
    Decimal.toBinary64 ⟨Nat.ofDigitChars 10 (whole ++ places.1) 0, e - places.1.length⟩

/-- A number without sign, or one of the words for what is not a finite number, in letters of any case. -/
def magnitude? (t : Text) : Option Binary64 :=
  let word := t.map Char.toLower
  if word = "inf".toList ∨ word = "infinity".toList then some .infinity
  else if word = "nan".toList then some .nan
  else unsigned? t

/-- A number with an optional sign. -/
def read? : Text → Option Binary64
  | '-' :: t => (magnitude? t).map (- ·)
  | '+' :: t => magnitude? t
  | t => magnitude? t

example : read? "1.5e+3".toList = some 1500 ∧ read? "-.5".toList = some (-1 / 2) ∧ read? "5.".toList = some 5 ∧
    read? "+Infinity".toList = some .infinity := by decide +kernel

example : read? ".".toList = none ∧ read? "".toList = none ∧ read? "1e".toList = none ∧
    read? "1.2.3".toList = none ∧ read? " 1".toList = none := by decide +kernel

example : (Binary64.ofNat 10 / 3).toPlaces 2 = Decimal.toBinary64 ⟨333, -2⟩ := by decide +kernel

end Numeral

end PocketCalc
