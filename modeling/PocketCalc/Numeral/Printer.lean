import PocketCalc.Binary64.Basic
import PocketCalc.Decimal.Shortest

/-!
# Numbers as texts

* `plain` — the shortest digits that read back, never an exponent;
* `scientific` — the shortest digits that read back, with an exponent;
* `natural` — the one or the other, by the size of the number;
* `fixed`, `exponential` — a given number of digits after the point;
* `fitted` — the natural text, shortened to a width where that is possible.
-/

namespace PocketCalc.Numeral

/-- The minus sign of a number with one, in front of a text. -/
def signed (a : Binary64) (t : Text) : Text := if a.isNegative then '-' :: t else t

/-- The shortest digits that read back, without exponent. -/
def plain (a : Binary64) : Text :=
  if a.isNaN then "NaN".toList
  else if a.isInfinite then signed a "inf".toList
  else if a.significand = 0 then signed a "0".toList
  else signed a (Decimal.shortest a).toPositional

/-- The shortest digits that read back, the first of them before the point, and an exponent. -/
def scientific (a : Binary64) : Text :=
  if a.isNaN then "NaN".toList
  else if a.isInfinite then signed a "inf".toList
  else if a.significand = 0 then signed a "0e0".toList
  else signed a ((Decimal.shortest a).toScientific false)

/-- The least size that is written without exponent. -/
def plainFrom : Binary64 := .ofFloat 1e-6

/-- The least size above `plainFrom` that is written with an exponent again. -/
def plainBelow : Binary64 := .ofFloat 1e21

/-- The number is of a size that is written without exponent. -/
def isPlain (a : Binary64) : Bool := plainFrom.le a.abs && a.abs.lt plainBelow

/-- The text of a number: the shortest digits that read back, with a signed exponent if the number is
very small or very large. A zero has no sign. -/
def natural (a : Binary64) : Text :=
  if a.isNaN then "NaN".toList
  else if a.isInfinite then signed a "Infinity".toList
  else if a.significand = 0 then "0".toList
  else if isPlain a then signed a (Decimal.shortest a).toPositional
  else signed a ((Decimal.shortest a).toScientific true)

/-- The number rounded to `places` digits after the point, with its sign even if it becomes zero. -/
def fixed (a : Binary64) (places : Nat) : Text :=
  if a.isFinite then signed a (Decimal.positional (Decimal.toPlaces a places) places) else plain a

/-- The number with one digit before the point, `places` digits after it, and a signed exponent. -/
def exponential (a : Binary64) (places : Nat) : Text :=
  if !a.isFinite then natural a
  else if a.significand = 0 then
    signed a (Decimal.scientific true (List.replicate (places + 1) '0') 0)
  else
    let d := Decimal.toSignificant a (places + 1)
    signed a (Decimal.scientific true (Decimal.digitsOf d.1) d.2)

/-- `places` digits after the point, or fewer if the text is wider than `width` otherwise. -/
def fixedWithin (a : Binary64) (width : Nat) : Nat → Text
  | 0 => fixed a 0
  | places + 1 =>
    let t := fixed a (places + 1)
    if t.length ≤ width then t else fixedWithin a width places

/-- What stands before the point, if there is a point. -/
def beforePoint? (t : Text) : Option Text :=
  if '.' ∈ t then some (t.takeWhile (· ≠ '.')) else none

/-- The text of a number in `width` characters. A text with an exponent stays as it is; digits after the
point are rounded away; a number that has too many digits before the point gets an exponent. -/
def fitted (a : Binary64) (width : Nat) : Text :=
  let t := natural a
  if 'e' ∈ t ∨ t.length ≤ width then t
  else
    match beforePoint? t with
    | none => exponential a (width - 5)
    | some whole =>
      if width ≤ whole.length then exponential a (width - 5)
      else fixedWithin a width (width - whole.length - 1)

example : plain 42 = "42".toList ∧ plain (-1 / 4) = "-0.25".toList ∧ plain (-0) = "-0".toList := by decide +kernel

example : scientific (1 / 8) = "1.25e-1".toList ∧ scientific 100 = "1e2".toList := by decide +kernel

example : natural (-0) = "0".toList ∧ natural (.ofFloat 1.5e21) = "1.5e+21".toList ∧
    natural (.ofFloat 1e-7) = "1e-7".toList ∧ natural (-.infinity) = "-Infinity".toList := by decide +kernel

example : fixed (-1 / 1000) 2 = "-0.00".toList ∧ fixed (5 / 2) 0 = "2".toList := by decide +kernel

example : exponential 99999 2 = "1.00e+5".toList ∧ exponential 0 2 = "0.00e+0".toList := by decide +kernel

example : fitted (2 / 3) 10 = "0.66666667".toList ∧ fitted (1 / 3) 6 = "0.3333".toList ∧
    fitted 12345678901 10 = "1.23457e+10".toList := by decide +kernel

end PocketCalc.Numeral
