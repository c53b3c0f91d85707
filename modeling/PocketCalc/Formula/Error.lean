import PocketCalc.Expr.Printer
import PocketCalc.Token.Basic

/-!
# Why a text is no formula

`ParseError` holds the cause, `ParseError.message` words it. `CalcError` is what a computation on a text
fails with: the text is no formula, or the formula has no value.
-/

namespace PocketCalc

/-- The greatest depth of a formula that is read. -/
def maxDepth : Nat := 256

/-- Why a text is no formula. -/
inductive ParseError where
  /-- There is nothing to read. -/
  | empty
  | unexpectedChar (c : Char)
  /-- A number with more than one point. -/
  | badNumber (text : Text)
  | unknownName (name : Text)
  /-- An opening parenthesis has no partner. -/
  | unclosed
  /-- A closing parenthesis has no partner. -/
  | unopened
  | comma
  | missingOperand
  | tooDeep
  /-- An operand follows an operand. -/
  | unexpectedToken (t : Token)
  /-- An operand belongs to no operator. -/
  | leftOver (e : Formula)
deriving DecidableEq

/-- The message of an error. -/
def ParseError.message : ParseError → Text
  | .empty => "entrée vide".toList
  | .unexpectedChar c => "caractère inattendu: '".toList ++ [c, '\'']
  | .badNumber text => "nombre invalide: ".toList ++ text
  | .unknownName name => "identifiant inconnu: ".toList ++ name
  | .unclosed => "parenthèses non fermées".toList
  | .unopened => "parenthèse fermante inattendue".toList
  | .comma => "virgule inattendue (fonctions à un seul argument)".toList
  | .missingOperand => "opérande manquant".toList
  | .tooDeep => "expression trop imbriquée (profondeur max ".toList ++ Nat.toDigits 10 maxDepth ++ [')']
  | .unexpectedToken t => "jeton inattendu: ".toList ++ t.text
  | .leftOver e => "jeton inattendu: ".toList ++ e.text

/-- What a computation on a text fails with. -/
inductive CalcError where
  | parse (error : ParseError)
  | eval (error : EvalError)
deriving DecidableEq

/-- The message of an error is that of its cause. -/
def CalcError.message : CalcError → Text
  | .parse error => error.message
  | .eval error => error.message

end PocketCalc
