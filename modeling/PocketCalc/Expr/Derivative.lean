import PocketCalc.Expr.Evaluate

/-!
# Derivatives

* `derivative name e` — the derivative of `e` by a variable, rule by rule and without simplification. Where
  no formula describes it, a literal that is no number stands in its place: for a factorial of the variable,
  and for a remainder by a divisor with the variable;
* `derivativeAt` — the value of the derivative at a point.
-/

namespace PocketCalc

open Arithmetic

variable {α : Type} [Arithmetic α]

namespace Expr

/-- The square of a formula, as a power. -/
def squared (e : Expr α) : Expr α := .binary .pow e (.number (ofNat 2))

/-- One divided by a formula. -/
def inverse (e : Expr α) : Expr α := .binary .div (.number (ofNat 1)) e

end Expr

/-- The derivative of a function at the argument `u`, without the inner derivative; the factorial has
none. -/
def Function.outer? (f : Function) (u : Expr α) : Option (Expr α) :=
  let rootOfRest : Expr α := .call .sqrt (.binary .sub (.number (Arithmetic.ofNat 1)) u.squared)
  match f with
  | .sin => some (.call .cos u)
  | .cos => some (.neg (.call .sin u))
  | .tan => some (Expr.inverse (Expr.squared (.call .cos u)))
  | .asin => some rootOfRest.inverse
  | .acos => some (.neg rootOfRest.inverse)
  | .atan => some (Expr.inverse (.binary .add (.number (Arithmetic.ofNat 1)) u.squared))
  | .ln => some u.inverse
  | .log10 => some (Expr.inverse (.binary .mul u (.number ln10)))
  | .exp => some (.call .exp u)
  | .sqrt => some (Expr.inverse (.binary .mul (.number (Arithmetic.ofNat 2)) (.call .sqrt u)))
  | .square => some (.binary .mul (.number (Arithmetic.ofNat 2)) u)
  | .cube => some (.binary .mul (.number (Arithmetic.ofNat 3)) u.squared)
  | .factorial => none

namespace Expr

/-- One less than an exponent; a literal exponent stays a literal. -/
def lessOne : Expr α → Expr α
  | .number n => .number (n - ofNat 1)
  | g => .binary .sub g (.number (ofNat 1))

/-- The derivative of `f ^ g`, with the derivatives `df` and `dg`. A constant exponent and a constant base
have rules of their own. -/
def powerRule (name : Text) (f df g dg : Expr α) : Expr α :=
  if !g.contains name then .binary .mul (.binary .mul g (.binary .pow f g.lessOne)) df
  else if !f.contains name then .binary .mul (.binary .mul (.binary .pow f g) (.call .ln f)) dg
  else
    .binary .mul (.binary .pow f g)
      (.binary .add (.binary .mul dg (.call .ln f)) (.binary .div (.binary .mul g df) f))

/-- The derivative of a formula by a variable. -/
def derivative (name : Text) : Expr α → Expr α
  | .atom (.var n) => .number (ofNat (if n = name then 1 else 0))
  | .atom _ => .number (ofNat 0)
  | .neg e => .neg (e.derivative name)
  | .call f u =>
    match f.outer? u with
    | some outer => .binary .mul outer (u.derivative name)
    | none => if u.contains name then .number nan else .number (ofNat 0)
  | .binary .add f g => .binary .add (f.derivative name) (g.derivative name)
  | .binary .sub f g => .binary .sub (f.derivative name) (g.derivative name)
  | .binary .mul f g =>
    .binary .add (.binary .mul (f.derivative name) g) (.binary .mul f (g.derivative name))
  | .binary .div f g =>
    .binary .div
      (.binary .sub (.binary .mul (f.derivative name) g) (.binary .mul f (g.derivative name))) g.squared
  | .binary .pow f g => powerRule name f (f.derivative name) g (g.derivative name)
  | .binary .mod f g => if g.contains name then .number nan else f.derivative name

/-- The value at `p` of the derivative by the variable that a value can be bound to. -/
def derivativeAt (e : Expr α) (p : α) : Except EvalError α := (e.derivative boundName).evaluate (some p)

end Expr

end PocketCalc
