import PocketCalc.Text.Basic

/-!
# Operators, functions and constants

The closed vocabulary of formulas: the two-place operators with their symbols, the functions with their
names and the words that are read as them, and the two named constants.
-/

namespace PocketCalc

/-- The operators with two operands. -/
inductive Operator where
  | add | sub | mul | div | pow | mod
deriving DecidableEq

/-- The symbol of an operator. -/
def Operator.symbol : Operator → Char
  | .add => '+'
  | .sub => '-'
  | .mul => '*'
  | .div => '/'
  | .pow => '^'
  | .mod => '%'

/-- The named constants. -/
inductive Constant where
  | pi | e
deriving DecidableEq

/-- The name of a constant. -/
def Constant.name : Constant → Text
  | .pi => "pi".toList
  | .e => "e".toList

/-- The functions of one argument. -/
inductive Function where
  | sin | cos | tan | asin | acos | atan | log10 | ln | exp | sqrt | square | cube | factorial
deriving DecidableEq

namespace Function

/-- The name of a function. -/
def name : Function → Text
  | .sin => "sin".toList
  | .cos => "cos".toList
  | .tan => "tan".toList
  | .asin => "asin".toList
  | .acos => "acos".toList
  | .atan => "atan".toList
  | .log10 => "log10".toList
  | .ln => "ln".toList
  | .exp => "exp".toList
  | .sqrt => "sqrt".toList
  | .square => "square".toList
  | .cube => "cube".toList
  | .factorial => "fact".toList

/-- All functions. -/
def all : List Function :=
  [.sin, .cos, .tan, .asin, .acos, .atan, .log10, .ln, .exp, .sqrt, .square, .cube, .factorial]

example (f : Function) : f ∈ all := by cases f <;> decide

/-- Words that are read as a function beside its name. -/
def aliases : List (Text × Function) := [("log".toList, .log10), ("factorial".toList, .factorial)]

/-- The function that a word in small letters stands for. -/
def ofName? (word : Text) : Option Function :=
  ((all.map fun f => (f.name, f)) ++ aliases).lookup word

/-- A function is read back from its name. -/
theorem ofName?_name (f : Function) : ofName? f.name = some f := by cases f <;> decide

end Function

end PocketCalc
