import FourFunction.Expression.Token

/-!
# Evaluation on a stack

Evaluates reordered tokens for any meaning `apply` of the operators. An operator takes the two newest
operands, the newest as its right one. With fewer than two it fails, but only after it has taken what is
there.
-/

namespace FourFunction

/-- The operands, newest first. -/
abbrev Stack (α : Type) := List α

namespace Stack

variable {α : Type} (apply : Operator → α → α → α)

def push (stack : Stack α) : Token α → Except CalculationError (Stack α)
  | .number _ value => .ok (value :: stack)
  | .operator op =>
    match stack with
    | right :: left :: rest => .ok (apply op left right :: rest)
    | few => .error (.operandCount 2 few.length)

/-- The stack after a token, whether or not it failed. A failing operator has taken its two operands, as
far as they were there, and puts nothing back. -/
def next (stack : Stack α) (token : Token α) : Stack α :=
  match push apply stack token with
  | .ok pushed => pushed
  | .error _ => stack.drop 2

/-- The one operand that is left. -/
def result : Stack α → Except CalculationError α
  | [value] => .ok value
  | stack => .error (.operandCount 1 stack.length)

end Stack

/-- The value of reordered tokens, or the first error. -/
def evaluate {α : Type} (apply : Operator → α → α → α) (tokens : List (Token α)) : Except CalculationError α := do
  let stack ← tokens.foldlM (Stack.push apply) []
  stack.result

end FourFunction
