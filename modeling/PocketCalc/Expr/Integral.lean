import PocketCalc.Expr.Evaluate

/-!
# Integrals

`integral e a b steps` is the value of the composite trapezoidal rule on `[a, b]`, in one pass over the
grid: the two ends count half. It fails as soon as the formula has no value at a point of the grid.
-/

namespace PocketCalc.Expr

open Arithmetic

variable {α : Type} [Arithmetic α]

/-- The greatest number of steps. -/
def maxSteps : Nat := 100000

/-- A number of steps within the limits. -/
def clampSteps (steps : Nat) : Nat := max 1 (min steps maxSteps)

/-- The point `i` of the grid that starts at `a` and has the width `h`. -/
def gridPoint (a h : α) (i : Nat) : α := a + ofNat i * h

/-- The weight of the point `i` of a grid with `n` steps: the ends count half. -/
def weight (n i : Nat) : α := if i = 0 ∨ i = n then ofNat 1 / ofNat 2 else ofNat 1

/-- The integral over `[a, b]` by trapezoids, `steps` of them within the limits. -/
@[specialize] def integral (e : Expr α) (a b : α) (steps : Nat) : Except EvalError α := do
  let n := clampSteps steps
  let h := (b - a) / ofNat n
  let sum ← (List.range (n + 1)).foldlM (fun sum i => do
    let y ← e.evaluate (some (gridPoint a h i))
    return sum + weight n i * y) (ofNat 0)
  return sum * h

end PocketCalc.Expr
