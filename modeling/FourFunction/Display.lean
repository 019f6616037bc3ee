import FourFunction.Decimal.Layout
import FourFunction.Decimal.Shortest

/-!
# Display of numbers

The two ways the calculator shows a number. The decimal display identifies the number: it shows the
shortest digits that read back. The compact display rounds to ten places, and shows the decimal display
where nothing would be left of a number that is not zero.
-/

namespace FourFunction

inductive DisplayFormat
  | decimal
  | compact
  deriving DecidableEq

namespace Binary64

/-! ### Decisions of the display -/

/-- From this number on up to `positionalEnd` the decimal display has no exponent. -/
def positionalStart : Decimal := ⟨1, -3⟩

def positionalEnd : Decimal := ⟨1, 7⟩

def compactPlaces : Nat := 10

def nanText : Text := ['N', 'a', 'N']

def infinityText : Text := ['I', 'n', 'f', 'i', 'n', 'i', 't', 'y']

/-! ### The displays of a finite magnitude -/

def signed (negative : Bool) (text : Text) : Text :=
  if negative then '-' :: text else text

/-- The limits are compared as numbers, so both are rounded. -/
def isPositional (rank : Nat) : Bool :=
  positionalStart.rank ≤ rank && rank < positionalEnd.rank

def decimalText (rank : Nat) : Text :=
  if rank = 0 then Decimal.pointed ⟨0, 0⟩
  else if isPositional rank then (Decimal.shortest rank).pointed
  else (Decimal.shortest rank).scientific

/-- The value rounded to the places of the compact display, counted in the last place. -/
def compactScaled (rank : Nat) : Nat :=
  roundDiv (units rank * powerOfTen compactPlaces) unitsPerOne

/-! ### Display -/

/-- A zero has a sign in the decimal display only. -/
def displayFinite (negative : Bool) (rank : Nat) : DisplayFormat → Text
  | .decimal => signed negative (decimalText rank)
  | .compact =>
    if rank = 0 then Decimal.plain 0 0
    else if compactScaled rank = 0 then signed negative (decimalText rank)
    else signed negative (Decimal.plain (compactScaled rank) compactPlaces)

def display (format : DisplayFormat) : Binary64 → Text
  | nan => nanText
  | infinite negative => signed negative infinityText
  | finite negative rank _ => displayFinite negative rank format

end Binary64

end FourFunction
