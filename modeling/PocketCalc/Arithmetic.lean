import PocketCalc.Function

/-!
# What formulas compute with

* `EvalError` — why a formula has no value, with its message;
* `Arithmetic` — the operations that evaluation and differentiation need of their numbers. The numbers of
  the calculator are one instance; exact ones can be another.
-/

namespace PocketCalc

/-- Why an operation is not defined at its operands. -/
inductive DomainReason where
  /-- The result is not a number. -/
  | indeterminate
  /-- A negative number to the power of a number with a fraction. -/
  | fractionalPower
  /-- The inverse sine or cosine of a number outside of `[-1, 1]`. -/
  | outsideUnit
  /-- The logarithm of zero or of a negative number. -/
  | nonPositiveLogarithm
  /-- The square root of a negative number. -/
  | negativeRoot
  /-- The factorial of anything but a natural number. -/
  | notNatural
  /-- A derivative that no formula describes. -/
  | noDerivative
deriving DecidableEq

/-- The text of a reason. -/
def DomainReason.message : DomainReason → Text
  | .indeterminate => "résultat indéterminé".toList
  | .fractionalPower => "base négative, exposant non entier".toList
  | .outsideUnit => "asin/acos : argument hors [-1, 1]".toList
  | .nonPositiveLogarithm => "logarithme : argument <= 0".toList
  | .negativeRoot => "√ : argument négatif".toList
  | .notNatural => "factorielle : entier positif attendu".toList
  | .noDerivative => "dérivée symbolique non définie".toList

/-- Why a formula has no value. -/
inductive EvalError where
  | divisionByZero
  | domain (reason : DomainReason)
  | overflow
  /-- A variable without a value. -/
  | unbound
deriving DecidableEq

/-- The message of an error. -/
def EvalError.message : EvalError → Text
  | .divisionByZero => "division par zéro".toList
  | .domain reason => "hors domaine: ".toList ++ reason.message
  | .overflow => "dépassement de capacité".toList
  | .unbound => "variable x non liée".toList

/-- Numbers with the operations of formulas. The comparisons are those of numbers, not of
representations: a type may have two zeros, and values that are no numbers at all. -/
class Arithmetic (α : Type) extends Add α, Sub α, Mul α, Div α, Neg α where
  /-- The number for a natural number. -/
  ofNat : Nat → α
  /-- The ratio of a circle's circumference to its diameter. -/
  pi : α
  /-- The base of the natural logarithm. -/
  e : α
  /-- The natural logarithm of ten. -/
  ln10 : α
  /-- The value that is no number. -/
  nan : α
  /-- The remainder, with the sign of the dividend. -/
  mod : α → α → α
  /-- The power. -/
  pow : α → α → α
  sin : α → α
  cos : α → α
  tan : α → α
  asin : α → α
  acos : α → α
  atan : α → α
  log10 : α → α
  ln : α → α
  exp : α → α
  sqrt : α → α
  /-- The product of the natural numbers up to a natural number. -/
  factorial : α → Except EvalError α
  /-- The value is no number. -/
  isNaN : α → Bool
  /-- The value is beyond all numbers. -/
  isInfinite : α → Bool
  /-- The value is a number without fraction. -/
  isWhole : α → Bool
  /-- Both values are the same number. -/
  eq : α → α → Bool
  /-- The first number is below the second. -/
  lt : α → α → Bool
  /-- The first number is not above the second. -/
  le : α → α → Bool

namespace Arithmetic

variable {α : Type} [Arithmetic α]

/-- The value is a number, and not beyond all numbers. -/
def isFinite (v : α) : Bool := !isNaN v && !isInfinite v

/-- The value, unless it is no number or beyond all numbers. -/
def checked (v : α) : Except EvalError α :=
  if isNaN v then .error (.domain .indeterminate)
  else if isInfinite v then .error .overflow
  else .ok v

end Arithmetic

/-- The value of a constant. -/
def Constant.value {α : Type} [Arithmetic α] : Constant → α
  | .pi => Arithmetic.pi
  | .e => Arithmetic.e

end PocketCalc
