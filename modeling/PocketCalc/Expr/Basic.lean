import PocketCalc.Binary64.Arithmetic

/-!
# Formulas as trees

* `Atom`, `Expr` — the leaves and the trees, over a type of numbers;
* `contains` — a variable occurs in the tree;
* `hasFiniteNumbers` — every number in the tree is finite;
* `depth`, `size` — a leaf has depth one and size one.
-/

namespace PocketCalc

/-- The leaves of a formula. -/
inductive Atom (α : Type) where
  | number (v : α)
  | var (name : Text)
  | constant (c : Constant)
deriving DecidableEq

/-- A formula. -/
inductive Expr (α : Type) where
  | atom (a : Atom α)
  | neg (e : Expr α)
  | call (f : Function) (e : Expr α)
  | binary (op : Operator) (a b : Expr α)
deriving DecidableEq

namespace Expr

variable {α : Type}

/-- A number as a formula. -/
@[match_pattern] abbrev number (v : α) : Expr α := .atom (.number v)

/-- The name of the variable that a value can be bound to. -/
def boundName : Text := "x".toList

/-- The variable that a value can be bound to. -/
def x : Expr α := .atom (.var boundName)

/-- The number that a formula consists of, if it is one. -/
def number? : Expr α → Option α
  | .number v => some v
  | _ => none

/-- The variable occurs in the formula. -/
def contains (name : Text) : Expr α → Bool
  | .atom (.var n) => n = name
  | .atom _ => false
  | .neg e => e.contains name
  | .call _ e => e.contains name
  | .binary _ a b => a.contains name || b.contains name

/-- Every number in the formula is finite. -/
def hasFiniteNumbers [Arithmetic α] : Expr α → Bool
  | .number v => Arithmetic.isFinite v
  | .atom _ => true
  | .neg e => e.hasFiniteNumbers
  | .call _ e => e.hasFiniteNumbers
  | .binary _ a b => a.hasFiniteNumbers && b.hasFiniteNumbers

/-- How many nodes lie on the longest way down. -/
def depth : Expr α → Nat
  | .atom _ => 1
  | .neg e => e.depth + 1
  | .call _ e => e.depth + 1
  | .binary _ a b => max a.depth b.depth + 1

/-- How many nodes the formula has. -/
def size : Expr α → Nat
  | .atom _ => 1
  | .neg e => e.size + 1
  | .call _ e => e.size + 1
  | .binary _ a b => a.size + b.size + 1

theorem number?_eq_some {e : Expr α} {v : α} : e.number? = some v ↔ e = .number v := by
  constructor
  · intro h
    unfold number? at h
    split at h
    · cases h
      rfl
    · cases h
  · rintro rfl
    rfl

theorem depth_pos (e : Expr α) : 0 < e.depth := by cases e <;> simp [depth]

theorem depth_le_size (e : Expr α) : e.depth ≤ e.size := by
  induction e with
  | atom _ => simp [depth, size]
  | neg e ih => simpa [depth, size] using ih
  | call f e ih => simpa [depth, size] using ih
  | binary op a b iha ihb => simp only [depth, size]; omega

end Expr

/-- A formula over the numbers of the calculator. -/
abbrev Formula := Expr Binary64

end PocketCalc
