import PocketCalc.Expr.Basic

/-!
# Simplification

* `negated`, `combined` — a negation and an operation on formulas that are simple already;
* `simplify` — numbers are computed as long as the result is finite, and neutral and absorbing operands go
  away: `0 + a`, `a - 0`, `1 · a`, `0 · a`, `a / 1`, `a ^ 1`, `a ^ 0`, `- - a`.
-/

namespace PocketCalc

open Arithmetic

variable {α : Type} [Arithmetic α]

/-- The result of an operator on two numbers, without regard to its domain. -/
def Operator.raw (op : Operator) (a b : α) : α :=
  match op with
  | .add => a + b
  | .sub => a - b
  | .mul => a * b
  | .div => a / b
  | .pow => Arithmetic.pow a b
  | .mod => Arithmetic.mod a b

namespace Expr

/-- The formula is the number `n`. -/
def isNat (n : Nat) (e : Expr α) : Bool :=
  match e.number? with
  | some v => eq v (ofNat n)
  | none => false

/-- The negation of a formula: of a number the opposite number, of a negation what it negates. -/
def negated : Expr α → Expr α
  | .number v => .number (-v)
  | .neg e => e
  | e => .neg e

/-- The number that an operator gives on two formulas, if both are numbers and the result is finite. -/
def folded? (op : Operator) (a b : Expr α) : Option α :=
  match a.number?, b.number? with
  | some v, some w => if isFinite (op.raw v w) then some (op.raw v w) else none
  | _, _ => none

/-- An operator on two formulas, without operands that make no difference. -/
def reduced (op : Operator) (a b : Expr α) : Expr α :=
  match op with
  | .add => if a.isNat 0 then b else if b.isNat 0 then a else .binary .add a b
  | .sub => if b.isNat 0 then a else if a.isNat 0 then negated b else .binary .sub a b
  | .mul =>
    if a.isNat 0 || b.isNat 0 then .number (ofNat 0)
    else if a.isNat 1 then b else if b.isNat 1 then a else .binary .mul a b
  | .div => if b.isNat 1 then a else .binary .div a b
  | .pow => if b.isNat 1 then a else if b.isNat 0 then .number (ofNat 1) else .binary .pow a b
  | .mod => .binary .mod a b

/-- An operator on two simple formulas: their number if they have one, else the reduced operation. -/
def combined (op : Operator) (a b : Expr α) : Expr α :=
  match folded? op a b with
  | some v => .number v
  | none => reduced op a b

/-- The simple form of a formula. -/
def simplify : Expr α → Expr α
  | .atom a => .atom a
  | .neg e => negated e.simplify
  | .call f e => .call f e.simplify
  | .binary op a b => combined op a.simplify b.simplify

end Expr

end PocketCalc
