import PocketCalc.Binary64.Basic
import PocketCalc.Decimal.Layout
import PocketCalc.Decimal.Rounding

/-!
# The shortest decimal of a binary number

A decimal *reads back* to a number if it lies in the interval of reals that round to it: halfway to the
two neighbours, the ends included exactly when the significand is even.

* `readsBack` — the test, exact over the natural numbers;
* `shortest` — the decimal with the fewest digits that reads back; of two with equally many digits the
  nearer one, and the upper one if both are equally near.
-/

namespace PocketCalc.Decimal

/-- Compares `a · 10 ^ i` with `b · 2 ^ j`. -/
def compareWith (a : Nat) (i : Int) (b : Nat) (j : Int) : Ordering :=
  compare (a * Nat.pow 10 i.toNat * Nat.pow 2 (-j).toNat) (b * Nat.pow 2 j.toNat * Nat.pow 10 (-i).toNat)

/-- The decimal lies in the interval of the reals that round to `|v|`. The ends of the interval are
whole numbers of quarters of the last binary place. -/
def readsBack (v : Binary64) (d : Decimal) : Bool :=
  let m := v.significand
  let low := compareWith d.digits d.exponent (4 * m - if v.isNarrowBelow then 1 else 2) (v.exponent - 2)
  let high := compareWith d.digits d.exponent (4 * m + 2) (v.exponent - 2)
  if m % 2 = 0 then low.isGE && high.isLE else low.isGT && high.isLT

/-- The decimal with unit `10 ^ e` that reads back to `|v|`, if there is one: the neighbour below or the
neighbour above, whichever is nearer if both do. -/
def onGrid? (v : Binary64) (e : Int) : Option Decimal :=
  let num := (fraction v (-e)).1
  let den := (fraction v (-e)).2
  let below : Decimal := ⟨num / den, e⟩
  let above : Decimal := ⟨num / den + 1, e⟩
  match readsBack v below, readsBack v above with
  | true, true => if 2 * (num % den) < den then some below else some above
  | true, false => some below
  | false, true => some above
  | false, false => none

/-- The exact value of `|v|`. -/
def exact (v : Binary64) : Decimal :=
  ⟨v.significand * Nat.pow 2 v.exponent.toNat * Nat.pow 5 (-v.exponent).toNat, min v.exponent 0⟩

/-- Ten units are one unit of the next power of ten. -/
def carried (d : Decimal) : Decimal :=
  if d.digits = 10 then ⟨1, d.exponent + 1⟩ else d

/-- The shortest decimal that reads back to `|v|`, for a finite `v` other than zero. The grids are tried
from the coarsest, which has the leading digit only, to the seventeenth. -/
def shortest (v : Binary64) : Decimal :=
  let k := magnitude (fraction v 0).1 (fraction v 0).2
  carried (((List.range 17).findSome? fun (n : Nat) => onGrid? v (k - 1 - n)).getD (exact v))

/-- The interval of one: its ends belong to it, and beyond them other numbers begin. -/
example : readsBack 1 ⟨(2 ^ 53 + 1) * 5 ^ 53, -53⟩ = true ∧ readsBack 1 ⟨(2 ^ 53 + 1) * 5 ^ 53 + 1, -53⟩ = false ∧
    readsBack 1 ⟨(2 ^ 54 - 1) * 5 ^ 54, -54⟩ = true ∧ readsBack 1 ⟨(2 ^ 54 - 1) * 5 ^ 54 - 1, -54⟩ = false := by
  decide +kernel

example : shortest (1 / 10) = ⟨1, -1⟩ ∧ shortest 1000 = ⟨1, 3⟩ ∧ shortest (2 / 3) = ⟨6666666666666666, -16⟩ := by
  decide +kernel

/-- Of two equally near decimals the upper one. -/
example : shortest (Binary64.ofScaled false 1 (-25)) = ⟨29802322387695313, -24⟩ := by decide +kernel

example : shortest (Binary64.ofScaled false 1 (-1074)) = ⟨5, -324⟩ := by decide +kernel

end PocketCalc.Decimal
