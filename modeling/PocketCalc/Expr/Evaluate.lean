import PocketCalc.Expr.Basic

/-!
# The value of a formula

* `Function.apply`, `Operator.apply` — the value of a function or an operator at given operands, or the
  reason why there is none;
* `Expr.evaluate` — the value of a formula, with a value for its variable or without one. Operands are
  evaluated from left to right; the first failure is the failure of the formula.
-/

namespace PocketCalc

open Arithmetic

variable {α : Type} [Arithmetic α]

/-- The value of a function. -/
@[specialize] def Function.apply (f : Function) (v : α) : Except EvalError α :=
  match f with
  | .sin => checked (Arithmetic.sin v)
  | .cos => checked (Arithmetic.cos v)
  | .tan => checked (Arithmetic.tan v)
  | .asin => if inUnit v then .ok (Arithmetic.asin v) else .error (.domain .outsideUnit)
  | .acos => if inUnit v then .ok (Arithmetic.acos v) else .error (.domain .outsideUnit)
  | .atan => checked (Arithmetic.atan v)
  | .log10 => if le v (Arithmetic.ofNat 0) then .error (.domain .nonPositiveLogarithm) else .ok (Arithmetic.log10 v)
  | .ln => if le v (Arithmetic.ofNat 0) then .error (.domain .nonPositiveLogarithm) else .ok (Arithmetic.ln v)
  | .exp => checked (Arithmetic.exp v)
  | .sqrt => if lt v (Arithmetic.ofNat 0) then .error (.domain .negativeRoot) else .ok (Arithmetic.sqrt v)
  | .square => checked (v * v)
  | .cube => checked (v * v * v)
  | .factorial => Arithmetic.factorial v
where
  /-- The number lies between minus one and one. -/
  inUnit (v : α) : Bool := le (-Arithmetic.ofNat 1) v && le v (Arithmetic.ofNat 1)

/-- The value of an operator. -/
@[specialize] def Operator.apply (op : Operator) (a b : α) : Except EvalError α :=
  match op with
  | .add => checked (a + b)
  | .sub => checked (a - b)
  | .mul => checked (a * b)
  | .div => if eq b (Arithmetic.ofNat 0) then .error .divisionByZero else checked (a / b)
  | .mod => if eq b (Arithmetic.ofNat 0) then .error .divisionByZero else checked (Arithmetic.mod a b)
  | .pow =>
    if lt a (Arithmetic.ofNat 0) && !isWhole b then .error (.domain .fractionalPower)
    else if eq a (Arithmetic.ofNat 0) && lt b (Arithmetic.ofNat 0) then .error .divisionByZero
    else checked (Arithmetic.pow a b)

namespace Expr

/-- The value of a leaf. -/
@[specialize] def evaluateAtom (x : Option α) : Atom α → Except EvalError α
  | .number v => checked v
  | .constant c => .ok c.value
  | .var name =>
    match x with
    | some v => if name = boundName then .ok v else .error .unbound
    | none => .error .unbound

/-- The value of a formula whose variable has the value `x`, if any. -/
@[specialize] def evaluate (x : Option α) : Expr α → Except EvalError α
  | .atom a => evaluateAtom x a
  | .neg e => do return -(← e.evaluate x)
  | .call f e => do f.apply (← e.evaluate x)
  | .binary op a b => do
    let v ← a.evaluate x
    let w ← b.evaluate x
    op.apply v w

end Expr

end PocketCalc
