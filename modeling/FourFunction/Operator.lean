import FourFunction.Binary64.Arithmetic
import FourFunction.Text

/-!
# The four operators

The symbols, the two tiers of precedence and the arithmetic of the operators. The parsing and
evaluation of expressions use the tiers only; what an operator computes is a parameter there, and
`Operator.apply` is the value the calculator gives it.
-/

namespace FourFunction

inductive Operator
  | add
  | subtract
  | multiply
  | divide
  deriving DecidableEq

namespace Operator

def all : List Operator := [add, subtract, multiply, divide]

def symbol : Operator → Char
  | add => '+'
  | subtract => '-'
  | multiply => '*'
  | divide => '/'

def ofSymbol? (c : Char) : Option Operator :=
  all.find? (·.symbol == c)

/-- The operator that the whole text spells. -/
def ofText? : Text → Option Operator
  | [c] => ofSymbol? c
  | _ => none

def isAdditive : Operator → Bool
  | add | subtract => true
  | multiply | divide => false

/-- The greater binds more tightly. -/
def precedence (op : Operator) : Nat :=
  if op.isAdditive then 1 else 2

def apply : Operator → Binary64 → Binary64 → Binary64
  | add => Binary64.add
  | subtract => Binary64.sub
  | multiply => Binary64.mul
  | divide => Binary64.div

/-- The name of the operator in data. -/
def name : Operator → Text
  | add => "Add".toList
  | subtract => "Subtract".toList
  | multiply => "Multiply".toList
  | divide => "Divide".toList

def ofName? (name : Text) : Option Operator :=
  all.find? (·.name == name)

end Operator

end FourFunction
