import PocketCalc.Rpn.Stack
import PocketCalc.Token.Lexer

/-!
# Reading a formula

`Formula.parse` reads a text as a formula: its words, their listing, and the formula that the listing
describes.
-/

namespace PocketCalc.Formula

/-- The formula that a text stands for, blanks at its ends aside. -/
def parse (source : Text) : Except ParseError Formula :=
  let source := trim source
  if source = [] then .error .empty
  else do
    let ts ← Token.tokens source
    let items ← Rpn.ofTokens ts
    Rpn.build items

end PocketCalc.Formula
