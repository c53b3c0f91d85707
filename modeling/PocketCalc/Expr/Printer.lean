import PocketCalc.Expr.Basic
import PocketCalc.Numeral.Printer

/-!
# Formulas as texts

* `level` — how tightly a formula binds: sums, products, negations, powers, and what needs no parentheses;
* `write` — the text of a formula at a place that asks for a level, in parentheses if it binds less tightly;
* `text` — the text of a formula at a place that asks for nothing.
-/

namespace PocketCalc

/-- How tightly an operator binds. -/
def Operator.level : Operator → Nat
  | .add | .sub => 1
  | .mul | .div | .mod => 2
  | .pow => 4

namespace Expr

/-- How tightly a negation binds. -/
def negLevel : Nat := 3

/-- The level of what never needs parentheses. -/
def topLevel : Nat := 5

/-- How tightly a formula binds. A number with a minus sign is written like a negation. -/
def level : Formula → Nat
  | .number v => if v.isNegative && !v.eq 0 then negLevel else topLevel
  | .atom _ => topLevel
  | .neg _ => negLevel
  | .call _ _ => topLevel
  | .binary op _ _ => op.level

/-- A text in parentheses. -/
def parenthesized (t : Text) : Text := '(' :: t ++ [')']

/-- A text in parentheses, if it binds less tightly than its place asks for. -/
def atLevel (asked given : Nat) (t : Text) : Text := if given < asked then parenthesized t else t

/-- The text of a leaf. -/
def atomText : Atom Binary64 → Text
  | .number v => Numeral.natural v
  | .var name => name
  | .constant c => c.name

/-- The text of a formula at a place that asks for a level. The powers group from the right and have no
blanks around their symbol, the other operators group from the left. -/
def write (asked : Nat) : Formula → Text
  | .atom a => atLevel asked (level (.atom a)) (atomText a)
  | .neg e => atLevel asked negLevel ('-' :: e.write negLevel)
  | .call f e => f.name ++ parenthesized (e.write 0)
  | .binary .pow a b => atLevel asked Operator.pow.level (a.write topLevel ++ '^' :: b.write Operator.pow.level)
  | .binary op a b =>
    atLevel asked op.level (a.write op.level ++ [' ', op.symbol, ' '] ++ b.write (op.level + 1))

/-- The text of a formula. -/
def text (e : Formula) : Text := e.write 0

end Expr

end PocketCalc
