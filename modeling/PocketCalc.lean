import PocketCalc.Text.Basic
import PocketCalc.Binary64.Whole
import PocketCalc.Numeral.Printer
import PocketCalc.Numeral.Reader
import PocketCalc.Binary64.Arithmetic
import PocketCalc.Expr.Derivative
import PocketCalc.Expr.Simplify
import PocketCalc.Expr.Integral
import PocketCalc.Token.Lexer
import PocketCalc.Calculator.Compute
import PocketCalc.Graph.Curve
import PocketCalc.Calculator.Basic
import PocketCalc.Window.Field
import PocketCalc.Proofs.Exact.Derivative
import PocketCalc.Proofs.Grammar.Acceptance
import PocketCalc.Proofs.Rpn.Listing
import PocketCalc.Proofs.Expr.Finite
import PocketCalc.Proofs.Formula.RoundTrip
import PocketCalc.Proofs.Calculator.Display
import PocketCalc.Proofs.Numeral.Fitted
import PocketCalc.Proofs.Token.Append
import PocketCalc.Proofs.Calculator.History
import PocketCalc.Proofs.Binary64.Opposite
import PocketCalc.Proofs.Token.LeadingZeros
import PocketCalc.Proofs.Expr.ZeroMinus
import PocketCalc.Proofs.Grammar.ZeroMinus
import PocketCalc.Proofs.Formula.Typed
import PocketCalc.Proofs.Calculator.Typing
import PocketCalc.Proofs.Formula.DerivativeDepth
import PocketCalc.Proofs.Window.Graph
import PocketCalc.Proofs.Calculator.Memory
import PocketCalc.Proofs.Formula.Nesting
import PocketCalc.Proofs.Grammar.Refusal
import PocketCalc.Proofs.Numeral.Width
import PocketCalc.Proofs.Token.Join
import PocketCalc.Proofs.Calculator.Equals
import PocketCalc.Proofs.Expr.Constant
import PocketCalc.Proofs.Formula.Hidden
import PocketCalc.Proofs.Calculator.Integral
import PocketCalc.Proofs.Window.Opening
import PocketCalc.Proofs.Exact.Integral
import PocketCalc.Proofs.Graph.Sampling
import PocketCalc.Proofs.Expr.Recursion
import PocketCalc.Proofs.Calculator.Failure
import PocketCalc.Proofs.Window.Frames
import PocketCalc.Proofs.Formula.Tower
import PocketCalc.Proofs.Binary64.Rounds
