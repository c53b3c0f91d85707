import PocketCalc.Binary64.Basic

/-!
# Rounding a binary number on a decimal grid

* `roundDiv` — a quotient rounded to the nearest whole number, a half to the even neighbour;
* `fraction a e` — `|a| · 10 ^ e` as a quotient of natural numbers, exactly;
* `toPlaces` — how many units of `10 ^ -places` are nearest to `|a|`;
* `magnitude` — how many digits stand before the point;
* `toSignificant` — the nearest decimal with a given number of significant digits.
-/

namespace PocketCalc.Decimal

/-- The whole number nearest to `num / den`; a half goes to the even neighbour. -/
def roundDiv (num den : Nat) : Nat :=
  let whole := num / den
  let twice := 2 * (num % den)
  if twice < den then whole
  else if den < twice then whole + 1
  else whole + whole % 2

/-- The rounded quotient is at most half a unit away. -/
theorem roundDiv_near (num : Nat) {den : Nat} (h : 0 < den) :
    2 * num ≤ (2 * roundDiv num den + 1) * den ∧ (2 * roundDiv num den) * den ≤ 2 * num + den := by
  have hdiv : num = den * (num / den) + num % den := (Nat.div_add_mod num den).symm
  have hmod : num % den < den := Nat.mod_lt _ h
  simp only [roundDiv]
  generalize num / den = w at *
  generalize num % den = r at *
  subst hdiv
  have hp : w % 2 = 0 ∨ w % 2 = 1 := Nat.mod_two_eq_zero_or_one w
  split
  · constructor <;> grind
  · split
    · constructor <;> grind
    · rcases hp with hp | hp <;> rw [hp] <;> constructor <;> grind

/-- Of two equally near neighbours the even one is taken. -/
theorem roundDiv_even {num den : Nat} (h : 2 * (num % den) = den) : roundDiv num den % 2 = 0 := by
  simp only [roundDiv, h, Nat.lt_irrefl, if_false]
  omega

/-- `|a| · 10 ^ e`, for a finite `a`, as numerator and denominator. -/
def fraction (a : Binary64) (e : Int) : Nat × Nat :=
  (a.significand * Nat.pow 2 a.exponent.toNat * Nat.pow 10 e.toNat,
    Nat.pow 2 (-a.exponent).toNat * Nat.pow 10 (-e).toNat)

theorem fraction_den_pos (a : Binary64) (e : Int) : 0 < (fraction a e).2 :=
  Nat.mul_pos (Nat.pow_pos (by decide)) (Nat.pow_pos (by decide))

/-- How many units of `10 ^ -places` are nearest to `|a|`. -/
def toPlaces (a : Binary64) (places : Nat) : Nat :=
  roundDiv (fraction a places).1 (fraction a places).2

/-- The least `k` such that the positive quotient `num / den` is below `10 ^ k`. -/
def magnitude (num den : Nat) : Int :=
  if den ≤ num then (Nat.toDigits 10 (num / den)).length
  else 1 - (Nat.toDigits 10 ((den - 1) / num)).length

/-- The nearest decimal with `n` significant digits, `0 < n`, for a finite `a` other than zero: its
digits, and the exponent of the first of them. -/
def toSignificant (a : Binary64) (n : Nat) : Nat × Int :=
  let k := magnitude (fraction a 0).1 (fraction a 0).2
  let d := roundDiv (fraction a (n - k)).1 (fraction a (n - k)).2
  if d = Nat.pow 10 n then (Nat.pow 10 (n - 1), k) else (d, k - 1)

example : magnitude 1 1 = 1 ∧ magnitude 999 100 = 1 ∧ magnitude 1 10 = 0 ∧ magnitude 99 1000 = -1 := by
  decide

example : roundDiv 5 2 = 2 ∧ roundDiv 7 2 = 4 ∧ roundDiv 8 3 = 3 := by decide

end PocketCalc.Decimal
