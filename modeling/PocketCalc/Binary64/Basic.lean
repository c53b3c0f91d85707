/-!
# Numbers of the calculator

* `Binary64` — a binary64 number; `Float` has one NaN only, so the sign of a NaN is kept beside it;
* arithmetic and comparison follow IEEE 754 through `Float`;
* `significand`, `exponent` — a finite number is `±significand · 2 ^ exponent`, exactly;
* `ofScaled` — the number nearest to `±m · 2 ^ q`.

Powers of natural numbers are written with `Nat.pow` in all definitions: what `2 ^ n` stands for depends on what a module
imports, since the power of a monoid takes its place where there are monoids.
-/

namespace PocketCalc

/-- A binary64 number together with the sign that negations have given to a NaN. -/
structure Binary64 where
  /-- The number itself. -/
  float : Float
  /-- The number is a NaN with a minus sign. -/
  negatedNaN : Bool
  /-- Only a NaN can be one. -/
  isNaN_of_negated : negatedNaN = true → float.isNaN = true
deriving DecidableEq

namespace Binary64

/-- The result of an operation: a NaN comes out of it without a sign. -/
def ofFloat (v : Float) : Binary64 := ⟨v, false, nofun⟩

/-- The number nearest to a natural number. -/
def ofNat (n : Nat) : Binary64 := ofFloat (Float.ofNat n)

instance (n : Nat) : OfNat Binary64 n := ⟨ofNat n⟩

instance : Inhabited Binary64 := ⟨0⟩

/-! ## Arithmetic -/

instance : Add Binary64 := ⟨fun a b => ofFloat (a.float + b.float)⟩
instance : Sub Binary64 := ⟨fun a b => ofFloat (a.float - b.float)⟩
instance : Mul Binary64 := ⟨fun a b => ofFloat (a.float * b.float)⟩
instance : Div Binary64 := ⟨fun a b => ofFloat (a.float / b.float)⟩

theorem isNaN_neg_float {v : Float} (h : v.isNaN = true) : (-v).isNaN = true := by
  show (Float.Model.pack v.toModel.unpack.neg).unpack.isNaN = true
  have hunpack : v.toModel.unpack.isNaN = true := h
  generalize v.toModel.unpack = u at *
  cases u with
  | notANumber => rfl
  | _ => cases hunpack

/-- Negation turns the sign of every number, a NaN included. -/
instance : Neg Binary64 where
  neg a := ⟨-a.float, a.float.isNaN && !a.negatedNaN, fun h => isNaN_neg_float (Bool.and_eq_true_iff.1 h).1⟩

/-! ## Kinds and comparison -/

/-- The number is a NaN. -/
def isNaN (a : Binary64) : Bool := a.float.isNaN

/-- The number is one of the two infinities. -/
def isInfinite (a : Binary64) : Bool := a.float.isInf

/-- The number is neither infinite nor a NaN. -/
def isFinite (a : Binary64) : Bool := a.float.isFinite

/-- Equality of numbers: the two zeros are equal, a NaN equals nothing. -/
def eq (a b : Binary64) : Bool := a.float == b.float

/-- Strict order of numbers; false when one side is a NaN. -/
def lt (a b : Binary64) : Bool := a.float < b.float

/-- Order of numbers; false when one side is a NaN. -/
def le (a b : Binary64) : Bool := a.float ≤ b.float

/-- The distance from zero. -/
def abs (a : Binary64) : Binary64 := ofFloat a.float.abs

/-! ## Fields of the machine word -/

/-- The machine word, as a natural number below `2 ^ 64`. -/
def word (a : Binary64) : Nat := a.float.toBits.toNat

/-- The number has a minus sign, a zero and a NaN included. -/
def isNegative (a : Binary64) : Bool :=
  if a.isNaN then a.negatedNaN else decide (Nat.pow 2 63 ≤ a.word)

/-- The exponent field of the machine word. -/
def exponentField (a : Binary64) : Nat := a.word / Nat.pow 2 52 % Nat.pow 2 11

/-- The fraction field of the machine word. -/
def fractionField (a : Binary64) : Nat := a.word % Nat.pow 2 52

/-- The integer `m` of a finite number `±m · 2 ^ q`. -/
def significand (a : Binary64) : Nat :=
  if a.exponentField = 0 then a.fractionField else Nat.pow 2 52 + a.fractionField

/-- The power `q` of a finite number `±m · 2 ^ q`. -/
def exponent (a : Binary64) : Int := (max a.exponentField 1 : Nat) - 1075

/-- The number below is half as far away as the number above, as it is at a power of two. -/
def isNarrowBelow (a : Binary64) : Bool := a.fractionField = 0 && 1 < a.exponentField

open Float.Model in
/-- The number nearest to `m · 2 ^ q`, of two equally near the one with the even significand, with a
minus sign if `negative`. -/
def ofScaled (negative : Bool) (m : Nat) (q : Int) : Binary64 :=
  let sign : UnpackedFloat.Sign := if negative then .negative else .positive
  ofFloat (.ofModel (pack (UnpackedFloat.round Format.binary64 sign m q)))

/-! ## Limits -/

/-- Positive infinity. -/
def infinity : Binary64 := ofFloat (Float.ofBits 0x7FF0000000000000)

/-- The NaN without a sign. -/
def nan : Binary64 := ofFloat (Float.ofBits 0x7FF8000000000000)

example : infinity.isInfinite = true ∧ nan.isNaN = true := by decide +kernel

example : (5 : Binary64).significand = 5 * 2 ^ 50 ∧ (5 : Binary64).exponent = -50 := by decide +kernel

example : ofScaled true 5 (-1) = -(5 / 2) := by decide +kernel

/-- The smallest positive number is below the smallest normal one. -/
example : (ofScaled false 1 (-1074)).significand = 1 ∧ (ofScaled false 1 (-1074)).exponent = -1074 := by
  decide +kernel

end Binary64

end PocketCalc
