import PocketCalc.Expr.Basic
import PocketCalc.Token.Basic

/-!
# The grammar of formulas, by recursive descent

One function for each symbol of the grammar; it takes the longest phrase at the front of the words:

* `sum = product (('+' | '-') product)*`, grouped from the left;
* `product = unary (('*' | '/' | '%') unary)*`, grouped from the left;
* `unary = '-' unary | power`;
* `power = applied ['^' unary]`;
* `applied = function argument | atom`;
* `argument = '-' unary | applied`;
* `atom = number | x | pi | e | '(' sum ')'`.

`parse` takes a sum that all words belong to.
-/

namespace PocketCalc.Grammar

/-- The leaf that a word stands for. -/
def leaf? : Token → Option (Atom Binary64)
  | .number v => some (.number v)
  | .name word =>
    if word = Expr.boundName then some (.var word)
    else if word = Constant.pi.name then some (.constant .pi)
    else if word = Constant.e.name then some (.constant .e)
    else none
  | _ => none

/-- The function that a word stands for. -/
def function? : Token → Option Function
  | .name word => Function.ofName? word
  | _ => none

/-- The operators of sums. -/
def sumOperators : List Operator := [.add, .sub]

/-- The operators of products. -/
def productOperators : List Operator := [.mul, .div, .mod]

/-- A phrase, and the words behind it, fewer than `n`; or none, if there is none. -/
abbrev Phrase (n : Nat) : Type := Option (Formula × { rest : List Token // rest.length < n })

namespace Phrase

variable {n m : Nat}

/-- The phrase is the formula `e`, and all words are still there. -/
def done (e : Formula) (ts : List Token) : Phrase (ts.length + 1) := some (e, ⟨ts, Nat.lt_succ_self _⟩)

/-- The phrase goes on behind its first part. -/
def followedBy (p : Phrase n)
    (tail : Formula → (rest : List Token) → rest.length < n → Phrase (rest.length + 1)) : Phrase n := do
  let (a, ⟨rest, h⟩) ← p
  let (e, ⟨rest', h'⟩) ← tail a rest h
  return (e, ⟨rest', by omega⟩)

/-- The phrase stands for a formula that is made of it. -/
def wrap (make : Formula → Formula) (p : Phrase n) (h : n ≤ m) : Phrase m :=
  p.map fun r => (make r.1, ⟨r.2.1, Nat.lt_of_lt_of_le r.2.2 h⟩)

/-- A closing parenthesis stands behind the phrase. -/
def closed (p : Phrase n) (h : n ≤ m) : Phrase m :=
  match p with
  | some (e, ⟨.rightParen :: rest, h'⟩) => some (e, ⟨rest, by simp only [List.length_cons] at h'; omega⟩)
  | _ => none

end Phrase

mutual

/-- A product, and sums and differences with further products. -/
def sum (ts : List Token) : Phrase ts.length := (product ts).followedBy fun a rest _ => sumTail a rest
termination_by (ts.length, 5)

/-- The sums and differences of `a` with further products. -/
def sumTail (a : Formula) (ts : List Token) : Phrase (ts.length + 1) :=
  match ts with
  | .symbol op :: ts =>
    if op ∈ sumOperators then
      ((product ts).followedBy fun b rest _ => sumTail (.binary op a b) rest).wrap id (Nat.le_add_right _ 2)
    else .done a (.symbol op :: ts)
  | ts => .done a ts
termination_by (ts.length, 0)

/-- A signed power, and products and quotients with further ones. -/
def product (ts : List Token) : Phrase ts.length := (unary ts).followedBy fun a rest _ => productTail a rest
termination_by (ts.length, 4)

/-- The products and quotients of `a` with further signed powers. -/
def productTail (a : Formula) (ts : List Token) : Phrase (ts.length + 1) :=
  match ts with
  | .symbol op :: ts =>
    if op ∈ productOperators then
      ((unary ts).followedBy fun b rest _ => productTail (.binary op a b) rest).wrap id (Nat.le_add_right _ 2)
    else .done a (.symbol op :: ts)
  | ts => .done a ts
termination_by (ts.length, 0)

/-- A power, behind any number of minus signs. -/
def unary (ts : List Token) : Phrase ts.length :=
  match ts with
  | .symbol .sub :: ts => (unary ts).wrap .neg (Nat.le_succ _)
  | ts => power ts
termination_by (ts.length, 3)

/-- An applied function or an atom, with an exponent or without one. -/
def power (ts : List Token) : Phrase ts.length := (applied ts).followedBy fun a rest _ => powerTail a rest
termination_by (ts.length, 2)

/-- The power of `a` by a signed power, or `a` itself. -/
def powerTail (a : Formula) (ts : List Token) : Phrase (ts.length + 1) :=
  match ts with
  | .symbol .pow :: ts => (unary ts).wrap (.binary .pow a) (Nat.le_add_right _ 2)
  | ts => .done a ts
termination_by (ts.length, 0)

/-- A function with its argument, or an atom. -/
def applied (ts : List Token) : Phrase ts.length :=
  match ts with
  | [] => none
  | t :: ts =>
    match function? t with
    | some f => (argument ts).wrap (.call f) (Nat.le_succ _)
    | none => atom (t :: ts)
termination_by (ts.length, 1)

/-- The argument of a function: a signed power behind a minus sign, or something that binds as tightly as
the function. -/
def argument (ts : List Token) : Phrase ts.length :=
  match ts with
  | .symbol .sub :: ts => (unary ts).wrap .neg (Nat.le_succ _)
  | ts => applied ts
termination_by (ts.length, 2)

/-- A leaf, or a sum in parentheses. -/
def atom (ts : List Token) : Phrase ts.length :=
  match ts with
  | .leftParen :: ts => (sum ts).closed (Nat.le_succ _)
  | t :: ts => (leaf? t).map fun a => (.atom a, ⟨ts, Nat.lt_succ_self _⟩)
  | [] => none
termination_by (ts.length, 0)

end

/-- The formula that all the words make, if they make one. -/
def parse (ts : List Token) : Option Formula :=
  match sum ts with
  | some (e, ⟨[], _⟩) => some e
  | _ => none

end PocketCalc.Grammar
