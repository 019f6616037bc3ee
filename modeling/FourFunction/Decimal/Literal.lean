import FourFunction.Decimal.Basic
import FourFunction.Text

/-!
# Number literals

A literal keeps its spelling: which sign is written, which digits stand before and after the point,
how the exponent is marked. `scan` takes the longest literal off the front of a text and loses
nothing (`toText` gives it back), so what counts as a number is decided by a condition on the literal:
`IsNumeral` for a lexeme of an expression, a stricter one for numbers in JSON.
-/

namespace FourFunction

inductive Sign
  | plus
  | minus
  deriving DecidableEq

namespace Sign

def symbol : Sign → Char
  | plus => '+'
  | minus => '-'

def ofSymbol? : Char → Option Sign
  | '+' => some plus
  | '-' => some minus
  | _ => none

/-- Takes a sign off the front of a text, if it starts with one. -/
def scan : Text → Option Sign × Text
  | [] => (none, [])
  | c :: rest =>
    match ofSymbol? c with
    | some sign => (some sign, rest)
    | none => (none, c :: rest)

def toText : Option Sign → Text
  | some sign => [sign.symbol]
  | none => []

end Sign

/-- An exponent as written: the mark, a sign, digits. -/
structure Scale where
  capital : Bool
  sign : Option Sign
  digits : Text
  deriving DecidableEq

namespace Scale

def mark (scale : Scale) : Char :=
  if scale.capital then 'E' else 'e'

def toText (scale : Scale) : Text :=
  scale.mark :: Sign.toText scale.sign ++ scale.digits

def exponent (scale : Scale) : Int :=
  let magnitude : Int := Nat.ofDigitChars 10 scale.digits 0
  if scale.sign = some .minus then -magnitude else magnitude

/-- Takes what follows a mark off the front of a text. -/
def scanAfterMark (capital : Bool) (text : Text) : Scale × Text :=
  let (sign, rest) := Sign.scan text
  (⟨capital, sign, rest.takeWhile Char.isDigit⟩, rest.dropWhile Char.isDigit)

def scan : Text → Option Scale × Text
  | 'e' :: rest => (scanAfterMark false rest).map some id
  | 'E' :: rest => (scanAfterMark true rest).map some id
  | text => (none, text)

end Scale

/-- A number as written. The fraction is what follows a point, if there is a point. -/
structure Literal where
  sign : Option Sign
  whole : Text
  fraction : Option Text
  scale : Option Scale
  deriving DecidableEq

namespace Literal

/-! ### Spelling -/

def fractionText : Option Text → Text
  | some digits => '.' :: digits
  | none => []

def scaleText : Option Scale → Text
  | some scale => scale.toText
  | none => []

def toText (literal : Literal) : Text :=
  Sign.toText literal.sign ++ literal.whole ++ fractionText literal.fraction ++ scaleText literal.scale

/-- Takes a point and the digits after it off the front of a text. -/
def scanFraction : Text → Option Text × Text
  | '.' :: rest => (some (rest.takeWhile Char.isDigit), rest.dropWhile Char.isDigit)
  | text => (none, text)

/-- The longest literal at the front of a text, and the rest. Every part may be missing, digits
included. -/
def scan (text : Text) : Literal × Text :=
  let (sign, text) := Sign.scan text
  let (fraction, rest) := scanFraction (text.dropWhile Char.isDigit)
  let (scale, rest) := Scale.scan rest
  (⟨sign, text.takeWhile Char.isDigit, fraction, scale⟩, rest)

/-! ### Numerals -/

/-- There is a digit before or after the point, and a marked exponent has digits. -/
def IsNumeral (literal : Literal) : Prop :=
  (literal.whole ≠ [] ∨ literal.fraction.getD [] ≠ []) ∧ ∀ scale ∈ literal.scale, scale.digits ≠ []

instance (literal : Literal) : Decidable literal.IsNumeral :=
  inferInstanceAs (Decidable (_ ∧ _))

/-- The numeral that the whole text spells. -/
def ofText? (text : Text) : Option Literal :=
  let (literal, rest) := scan text
  if rest = [] ∧ literal.IsNumeral then some literal else none

/-! ### Value -/

/-- The value without the sign. -/
def magnitude (literal : Literal) : Decimal :=
  let fraction := literal.fraction.getD []
  ⟨Nat.ofDigitChars 10 (literal.whole ++ fraction) 0,
    (literal.scale.map Scale.exponent).getD 0 - fraction.length⟩

/-- The nearest number; a zero keeps the sign. -/
def nearest (literal : Literal) : Binary64 :=
  .ofRank (literal.sign = some .minus) literal.magnitude.rank

end Literal

end FourFunction
