import FourFunction.Operator

/-!
# The entry line

The expression being entered. Digits are appended as they are; an operator is appended with a space on
each side, and only where it can follow: not at the start, and not behind another space. So the spaces
of an entry are the separators of its lexemes. A backspace takes the last visible character and the
blanks around it.
-/

namespace FourFunction

structure Entry where
  text : Text
  deriving DecidableEq

namespace Entry

def empty : Entry := ⟨[]⟩

def isEmpty (entry : Entry) : Bool :=
  entry.text.isEmpty

/-- Only the digits up to nine can be entered. -/
def pushDigit? (entry : Entry) (digit : UInt8) : Option Entry :=
  if digit ≤ 9 then some ⟨entry.text ++ [Nat.digitChar digit.toNat]⟩ else none

/-- An operator as it stands in an entry. -/
def operatorText (op : Operator) : Text :=
  [' ', op.symbol, ' ']

def acceptsOperator (entry : Entry) : Bool :=
  !entry.text.isEmpty && entry.text.getLast? != some ' '

def pushOperator? (entry : Entry) (op : Operator) : Option Entry :=
  if entry.acceptsOperator then some ⟨entry.text ++ operatorText op⟩ else none

/-- The entry after a digit, unchanged if it is refused. -/
def pushDigit (entry : Entry) (digit : UInt8) : Entry :=
  (entry.pushDigit? digit).getD entry

/-- The entry after an operator, unchanged if it is refused. -/
def pushOperator (entry : Entry) (op : Operator) : Entry :=
  (entry.pushOperator? op).getD entry

def backspace (entry : Entry) : Entry :=
  ⟨Text.trimEnd (Text.trimEnd entry.text).dropLast⟩

end Entry

end FourFunction
