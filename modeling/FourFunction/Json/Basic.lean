import FourFunction.Decimal.Literal
import FourFunction.Json.Quoted

/-!
# JSON values

Values as they stand in a text: a number keeps its spelling, and an object keeps its members in order,
repeated names included. What counts as a number or a text is left to whoever reads the value.
-/

namespace FourFunction

/-- A string without a text names half of a surrogate pair. -/
inductive Json
  | null
  | bool (value : Bool)
  | number (literal : Literal)
  | string (text : Option Text)
  | array (items : List Json)
  | object (members : List (Option Text × Json))

namespace Json

/-- The whole number of a literal without sign, point and exponent. -/
def wholeNumber? : Json → Option Nat
  | number ⟨none, digits, none, none⟩ => some (Nat.ofDigitChars 10 digits 0)
  | _ => none

/-- The name of a variant without data, written as a string or as an object with the member `null`. -/
def variant? : Json → Option Text
  | string name => name
  | object [(name, null)] => name
  | _ => none

end Json

end FourFunction
