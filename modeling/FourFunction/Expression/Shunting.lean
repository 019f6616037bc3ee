import FourFunction.Expression.Token

/-!
# Shunting

Reorders a list of tokens so that each operator follows its operands. Numbers pass straight through;
an operator waits until one arrives that does not bind more tightly. Nothing is checked: any list of
tokens is reordered, and whether operands are missing is found out by the evaluation.
-/

namespace FourFunction

/-- What has passed through so far, newest first, and the operators that wait, newest first. -/
structure Yard (α : Type) where
  passed : List (Token α)
  waiting : List Operator
  deriving DecidableEq

namespace Yard

variable {α : Type}

def empty : Yard α := ⟨[], []⟩

/-- The waiting operators that an arriving operator sends on their way. -/
def released (yard : Yard α) (op : Operator) : List Operator :=
  yard.waiting.takeWhile (op.precedence ≤ ·.precedence)

/-- The waiting operators that wait on below an arriving operator. -/
def held (yard : Yard α) (op : Operator) : List Operator :=
  yard.waiting.dropWhile (op.precedence ≤ ·.precedence)

def push (yard : Yard α) : Token α → Yard α
  | .number text value => { yard with passed := .number text value :: yard.passed }
  | .operator op =>
    ⟨((yard.released op).map .operator).reverse ++ yard.passed, op :: yard.held op⟩

/-- Everything in order of passing, the waiting operators last. -/
def drain (yard : Yard α) : List (Token α) :=
  yard.passed.reverse ++ yard.waiting.map .operator

end Yard

/-- The tokens with each operator behind its operands. -/
def reorder {α : Type} (tokens : List (Token α)) : List (Token α) :=
  (tokens.foldl Yard.push .empty).drain

end FourFunction
