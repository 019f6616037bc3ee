import FourFunction.Decimal.Literal
import FourFunction.Expression.Error
import FourFunction.Operator

/-!
# Lexemes and tokens

An expression is a list of lexemes with one space between neighbours. Space is the only separator and
every space separates, so a doubled, leading or trailing space gives an empty lexeme. Each lexeme is an
operator, or a numeral with a finite value, or the cause of an error.
-/

namespace FourFunction

/-! ### Lexemes -/

namespace Lexeme

/-- The pieces of a text between its spaces; a text without spaces is one piece. -/
def split (text : Text) : List Text :=
  text.splitOn ' '

/-- The text with the given pieces. -/
def join (lexemes : List Text) : Text :=
  [' '].intercalate lexemes

end Lexeme

/-! ### Tokens -/

/-- A number token carries its spelling and, apart from it, a value. -/
inductive Token (α : Type)
  | number (text : Text) (value : α)
  | operator (op : Operator)
  deriving DecidableEq

namespace Token

/-- The spelling. -/
def text {α : Type} : Token α → Text
  | number text _ => text
  | operator op => [op.symbol]

def isNumber {α : Type} : Token α → Bool
  | number .. => true
  | operator _ => false

/-- The value of a numeral, if it is finite. -/
def finiteValue? (lexeme : Text) : Option Binary64 :=
  ((Literal.ofText? lexeme).map Literal.nearest).filter Binary64.isFinite

/-- A lone sign is an operator, never part of a number. -/
def ofLexeme (lexeme : Text) : Except CalculationError (Token Binary64) :=
  match Operator.ofText? lexeme with
  | some op => .ok (operator op)
  | none =>
    match finiteValue? lexeme with
    | some value => .ok (number lexeme value)
    | none => .error (.malformed lexeme)

/-- The tokens of an expression, or the error of the first lexeme that is none. -/
def ofText (text : Text) : Except CalculationError (List (Token Binary64)) :=
  (Lexeme.split text).mapM ofLexeme

end Token

end FourFunction
