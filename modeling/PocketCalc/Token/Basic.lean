import PocketCalc.Arithmetic
import PocketCalc.Numeral.Printer

/-!
# The words of a formula

* `Token` — the words that a text is read as; the minus sign is one token, before an operand and between
  two;
* `Token.text`, `Token.join` — their texts.
-/

namespace PocketCalc

/-- The words of a formula. -/
inductive Token where
  | number (v : Binary64)
  | name (word : Text)
  | symbol (op : Operator)
  | leftParen
  | rightParen
  | comma
deriving DecidableEq

namespace Token

/-- The text of a token. A number is written without exponent. -/
def text : Token → Text
  | .number v => Numeral.plain v
  | .name word => word
  | .symbol op => [op.symbol]
  | .leftParen => ['(']
  | .rightParen => [')']
  | .comma => [',']

/-- The texts of the tokens, with a blank between two. -/
def join (ts : List Token) : Text := [' '].intercalate (ts.map text)

end Token

end PocketCalc
