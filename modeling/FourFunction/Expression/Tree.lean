import FourFunction.Expression.Token

/-!
# Expression trees

The structure that a list of tokens stands for: read in order it is the expression as entered, read
with each operator last it is the list that a stack evaluates.
-/

namespace FourFunction

inductive Tree (α : Type)
  | leaf (text : Text) (value : α)
  | node (op : Operator) (left right : Tree α)
  deriving DecidableEq

namespace Tree

variable {α : Type}

def inOrder : Tree α → List (Token α)
  | leaf text value => [.number text value]
  | node op left right => left.inOrder ++ .operator op :: right.inOrder

def operatorLast : Tree α → List (Token α)
  | leaf text value => [.number text value]
  | node op left right => left.operatorLast ++ right.operatorLast ++ [.operator op]

def value (apply : Operator → α → α → α) : Tree α → α
  | leaf _ value => value
  | node op left right => apply op (left.value apply) (right.value apply)

/-- Whether a child may stand on the left of an operator: it binds at least as tightly. -/
def FitsLeft (op : Operator) : Tree α → Prop
  | leaf .. => True
  | node child _ _ => op.precedence ≤ child.precedence

/-- Whether a child may stand on the right of an operator: it binds more tightly. -/
def FitsRight (op : Operator) : Tree α → Prop
  | leaf .. => True
  | node child _ _ => op.precedence < child.precedence

/-- Tighter operators lie deeper, and equal ones associate to the left. -/
def IsArranged : Tree α → Prop
  | leaf .. => True
  | node op left right => FitsLeft op left ∧ FitsRight op right ∧ left.IsArranged ∧ right.IsArranged

instance (op : Operator) (tree : Tree α) : Decidable (FitsLeft op tree) :=
  match tree with
  | leaf .. => inferInstanceAs (Decidable True)
  | node child _ _ => inferInstanceAs (Decidable (op.precedence ≤ child.precedence))

instance (op : Operator) (tree : Tree α) : Decidable (FitsRight op tree) :=
  match tree with
  | leaf .. => inferInstanceAs (Decidable True)
  | node child _ _ => inferInstanceAs (Decidable (op.precedence < child.precedence))

def decideIsArranged : (tree : Tree α) → Decidable tree.IsArranged
  | leaf .. => inferInstanceAs (Decidable True)
  | node op left right =>
    have := left.decideIsArranged
    have := right.decideIsArranged
    inferInstanceAs (Decidable (FitsLeft op left ∧ FitsRight op right ∧ left.IsArranged ∧ right.IsArranged))

instance (tree : Tree α) : Decidable tree.IsArranged :=
  tree.decideIsArranged

end Tree

end FourFunction
