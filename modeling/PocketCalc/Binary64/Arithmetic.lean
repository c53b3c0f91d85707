import PocketCalc.Arithmetic
import PocketCalc.Binary64.Whole

/-!
# The arithmetic of binary64 numbers

* `factorial` — the product of `1 … n`, from the left, in binary64 arithmetic; a number counts as natural
  if it is within `1e-9` of one;
* `sqrt` — the square root, correctly rounded;
* `Libm` — a library with the functions that are not computed here, `Libm.system` the one of the machine;
* the instances of `Arithmetic`: for any library, and for the one of the machine.
-/

namespace PocketCalc

namespace Binary64

/-- How far from a natural number the argument of a factorial may be. -/
def tolerance : Binary64 := ofFloat 1e-9

/-- `acc · k · (k + 1) ⋯` with `count` factors after `acc`, as long as the product is finite. -/
def productFrom (acc : Binary64) (k : Nat) : (count : Nat) → Except EvalError Binary64
  | 0 => .ok acc
  | count + 1 =>
    let acc := acc * ofNat k
    if acc.isInfinite then .error .overflow else productFrom acc (k + 1) count

/-- The factorial of the natural number at `a`. -/
def factorial (a : Binary64) : Except EvalError Binary64 :=
  let n := a.roundAbs
  if !a.isFinite || a.lt (-tolerance) || tolerance.lt (a - ofNat n).abs then .error (.domain .notNatural)
  else productFrom 1 2 (n - 1)

/-- The square root. -/
def sqrt (a : Binary64) : Binary64 := ofFloat a.float.sqrt

example : (factorial 5).toOption = some 120 ∧ (factorial 0).toOption = some 1 := by decide +kernel

example : (factorial (1 / 2) matches .error (.domain .notNatural)) = true := by decide +kernel

end Binary64

/-- A library of the functions that are not computed from the four operations. -/
structure Libm where
  sin : Binary64 → Binary64
  cos : Binary64 → Binary64
  tan : Binary64 → Binary64
  asin : Binary64 → Binary64
  acos : Binary64 → Binary64
  atan : Binary64 → Binary64
  log10 : Binary64 → Binary64
  ln : Binary64 → Binary64
  exp : Binary64 → Binary64
  pow : Binary64 → Binary64 → Binary64

namespace Libm

/-- The library of the machine. -/
def system : Libm where
  sin a := .ofFloat a.float.sin
  cos a := .ofFloat a.float.cos
  tan a := .ofFloat a.float.tan
  asin a := .ofFloat a.float.asin
  acos a := .ofFloat a.float.acos
  atan a := .ofFloat a.float.atan
  log10 a := .ofFloat a.float.log10
  ln a := .ofFloat a.float.log
  exp a := .ofFloat a.float.exp
  pow a b := .ofFloat (a.float.pow b.float)

/-- The numbers, computed with by means of a library. -/
def Number (_ : Libm) : Type := Binary64

instance (L : Libm) : DecidableEq L.Number := inferInstanceAs (DecidableEq Binary64)

instance (L : Libm) : Arithmetic L.Number where
  toAdd := inferInstanceAs (Add Binary64)
  toSub := inferInstanceAs (Sub Binary64)
  toMul := inferInstanceAs (Mul Binary64)
  toDiv := inferInstanceAs (Div Binary64)
  toNeg := inferInstanceAs (Neg Binary64)
  ofNat := Binary64.ofNat
  pi := Binary64.ofFloat (Float.ofBits 0x400921FB54442D18)
  e := Binary64.ofFloat (Float.ofBits 0x4005BF0A8B145769)
  ln10 := Binary64.ofFloat (Float.ofBits 0x40026BB1BBB55516)
  nan := Binary64.nan
  mod := Binary64.remainder
  pow := L.pow
  sin := L.sin
  cos := L.cos
  tan := L.tan
  asin := L.asin
  acos := L.acos
  atan := L.atan
  log10 := L.log10
  ln := L.ln
  exp := L.exp
  sqrt := Binary64.sqrt
  factorial := Binary64.factorial
  isNaN := Binary64.isNaN
  isInfinite := Binary64.isInfinite
  isWhole := Binary64.isWhole
  eq := Binary64.eq
  lt := Binary64.lt
  le := Binary64.le

end Libm

instance : Arithmetic Binary64 := inferInstanceAs (Arithmetic Libm.system.Number)

end PocketCalc
