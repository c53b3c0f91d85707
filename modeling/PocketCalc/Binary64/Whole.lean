import PocketCalc.Binary64.Basic

/-!
# Whole numbers and remainders

* `floorAbs`, `roundAbs` — the whole number below, and the whole number nearest to, the distance of a
  finite number from zero; a half goes away from zero;
* `isWhole` — a finite number without fraction;
* `remainder` — the exact remainder of a division, with the sign of the dividend.
-/

namespace PocketCalc.Binary64

/-- The greatest whole number that is not above `|a|`, for a finite `a`. -/
def floorAbs (a : Binary64) : Nat :=
  a.significand * Nat.pow 2 a.exponent.toNat / Nat.pow 2 (-a.exponent).toNat

/-- The whole number nearest to `|a|`, for a finite `a`; a half goes up. -/
def roundAbs (a : Binary64) : Nat :=
  (2 * (a.significand * Nat.pow 2 a.exponent.toNat) + Nat.pow 2 (-a.exponent).toNat) /
    (2 * Nat.pow 2 (-a.exponent).toNat)

/-- The number is finite and has no fraction. -/
def isWhole (a : Binary64) : Bool :=
  a.isFinite && a.significand % Nat.pow 2 (-a.exponent).toNat = 0

/-- The remainder of `a` divided by `b`: exact, smaller than `b` in size, with the sign of `a`. There is
none if `a` is infinite or `b` is zero; a finite `a` is its own remainder by an infinity. -/
def remainder (a b : Binary64) : Binary64 :=
  if a.isNaN || b.isNaN || a.isInfinite || b.significand = 0 then nan
  else if b.isInfinite then a
  else
    let q := min a.exponent b.exponent
    let m := a.significand * Nat.pow 2 (a.exponent - q).toNat
    let n := b.significand * Nat.pow 2 (b.exponent - q).toNat
    ofScaled a.isNegative (m % n) q

example : roundAbs (5 / 2) = 3 ∧ floorAbs (5 / 2) = 2 ∧ isWhole (5 / 2) = false ∧ isWhole (-4) = true := by
  decide +kernel

example : remainder (-7) 3 = -1 ∧ remainder 7 (-3) = 1 ∧ remainder (-4) 2 = -0 := by decide +kernel

end PocketCalc.Binary64
