import PocketCalc.Text.Basic

/-!
# Decimals and their two layouts

* `Decimal` — a whole number of units of a power of ten;
* `positional n places` — `n` units of `10 ^ -places`, with exactly that many digits after the point;
* `scientific ds e` — the digits `ds` with the point after the first of them, and the exponent `e`;
* `length_positional` — how wide a number with a fixed number of places is.
-/

namespace PocketCalc

/-- The decimal `digits · 10 ^ exponent`. -/
structure Decimal where
  /-- How many units. -/
  digits : Nat
  /-- The unit is `10 ^ exponent`. -/
  exponent : Int
deriving DecidableEq

namespace Decimal

/-- The digits of `n` in base ten; zero has one digit. -/
def digitsOf (n : Nat) : Text := Nat.toDigits 10 n

/-- The digits of `n`, with zeros in front if there are fewer than `width`. -/
def padded (width n : Nat) : Text :=
  List.replicate (width - (digitsOf n).length) '0' ++ digitsOf n

/-- `n` units of `10 ^ -places`, with `places` digits after the point and at least one before it; no
point if there are no places. -/
def positional (n places : Nat) : Text :=
  if places = 0 then digitsOf n
  else
    let ds := padded (places + 1) n
    ds.take (ds.length - places) ++ '.' :: ds.drop (ds.length - places)

/-- An exponent, with a plus sign in front of a non-negative one if `plus`. -/
def exponentText (plus : Bool) (e : Int) : Text :=
  if e < 0 then '-' :: digitsOf e.natAbs
  else if plus then '+' :: digitsOf e.natAbs
  else digitsOf e.natAbs

/-- The point after the first of the digits, and the exponent of the first digit behind an `e`. -/
def scientific (plus : Bool) (ds : Text) (e : Int) : Text :=
  (match ds with
    | d :: d' :: ds => d :: '.' :: d' :: ds
    | ds => ds) ++ 'e' :: exponentText plus e

/-- The decimal without exponent. -/
def toPositional (d : Decimal) : Text :=
  positional (d.digits * Nat.pow 10 d.exponent.toNat) (-d.exponent).toNat

/-- The decimal with one digit before the point, and an exponent. -/
def toScientific (plus : Bool) (d : Decimal) : Text :=
  scientific plus (digitsOf d.digits) (d.exponent + (digitsOf d.digits).length - 1)

/-! ## Widths -/

theorem length_padded (width n : Nat) :
    (padded width n).length = max width (digitsOf n).length := by
  simp only [padded, List.length_append, List.length_replicate]
  omega

/-- The digits, the zeros that fill them up to one before the point, and the point. -/
theorem length_positional (n places : Nat) :
    (positional n places).length =
      if places = 0 then (digitsOf n).length else max (places + 1) (digitsOf n).length + 1 := by
  unfold positional
  split
  · rfl
  · simp only [List.length_append, List.length_cons, List.length_take, List.length_drop, length_padded]
    omega

example : positional 5 0 = "5".toList ∧ positional 5 2 = "0.05".toList ∧ positional 1234 2 = "12.34".toList := by
  decide

example : toScientific true ⟨15, 20⟩ = "1.5e+21".toList ∧ toScientific false ⟨1, 2⟩ = "1e2".toList ∧
    toScientific true ⟨25, -8⟩ = "2.5e-7".toList := by decide

end Decimal

end PocketCalc
