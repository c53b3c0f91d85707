import PocketCalc.Expr.Derivative
import PocketCalc.Expr.Simplify
import PocketCalc.Formula.Parser
import PocketCalc.Settings

/-!
# Computing with texts

What the calculator does with the text on its display: its value, the text of its value, a function of it,
its derivative at a point and as a formula, its integral.
-/

namespace PocketCalc.Compute

/-- The formula that a text stands for, or the failure of a computation on it. -/
def read (t : Text) : Except CalcError Formula := (Formula.parse t).mapError .parse

/-- The value of a text without variable. -/
def valueOf (t : Text) : Except CalcError Binary64 := do
  (Expr.evaluate none (← read t)).mapError .eval

/-- The text of the value of a text. -/
def resultText (t : Text) (width : Nat) : Except CalcError Text := do
  return Numeral.fitted (← valueOf t) width

/-- The value at a point of the derivative of a text. -/
def derivativeAt (t : Text) (p : Binary64) : Except CalcError Binary64 := do
  (Expr.derivativeAt (← read t) p).mapError .eval

/-- The integral of a text. -/
def integral (t : Text) (a b : Binary64) (steps : Nat) : Except CalcError Binary64 := do
  (Expr.integral (← read t) a b steps).mapError .eval

/-- The text of the simplified derivative of a text; none if a number in it is not finite. -/
def derivativeText (t : Text) : Except CalcError Text := do
  let d := (Expr.derivative Expr.boundName (← read t)).simplify
  if d.hasFiniteNumbers then .ok d.text else .error (.eval (.domain .noDerivative))

/-- What a function key computes. -/
inductive Task where
  /-- A function of the value. -/
  | function (f : Function)
  /-- The derivative at the point that is set. -/
  | derivative
  /-- The integral that is set. -/
  | integral
deriving DecidableEq

/-- The name of a task. -/
def Task.name : Task → Text
  | .function f => f.name
  | .derivative => "derivative".toList
  | .integral => "integrate".toList

/-- The value of a task on a text. -/
def Task.value (task : Task) (t : Text) (s : Settings) : Except CalcError Binary64 :=
  match task with
  | .function f => do (f.apply (← valueOf t)).mapError .eval
  | .derivative => derivativeAt t s.point
  | .integral => Compute.integral t s.low s.high s.steps

/-- The text of the value of a task on a text. -/
def Task.resultText (task : Task) (t : Text) (s : Settings) : Except CalcError Text := do
  return Numeral.fitted (← task.value t s) s.width

end PocketCalc.Compute
