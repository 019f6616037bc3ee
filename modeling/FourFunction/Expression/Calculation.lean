import FourFunction.Expression.Shunting
import FourFunction.Expression.Stack

/-!
# Calculation of an expression

From the text of an expression to its value: tokens, reordering, evaluation. An error in a lexeme comes
before any error of the evaluation.
-/

namespace FourFunction

/-- The reordered tokens of an expression. -/
def reorderText (text : Text) : Except CalculationError (List (Token Binary64)) :=
  (Token.ofText text).map reorder

/-- The value of an expression. -/
def calculate (text : Text) : Except CalculationError Binary64 := do
  let tokens ← reorderText text
  evaluate Operator.apply tokens

end FourFunction
