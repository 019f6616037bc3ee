import FourFunction.Decimal.Layout

/-!
# Calculation errors

Why an expression has no value: a lexeme is no token, or operators and operands do not fit together.
-/

namespace FourFunction

inductive CalculationError
  /-- The lexeme is neither an operator nor a finite number. -/
  | malformed (lexeme : Text)
  | operandCount (expected found : Nat)
  deriving DecidableEq

namespace CalculationError

def message : CalculationError → Text
  | malformed lexeme => "Malformed expression: unrecognized token '".toList ++ lexeme ++ ['\'']
  | operandCount expected found =>
    "Invalid operand count: expected ".toList ++ Decimal.wholeText expected ++ ", found ".toList ++
      Decimal.wholeText found

end CalculationError

end FourFunction
