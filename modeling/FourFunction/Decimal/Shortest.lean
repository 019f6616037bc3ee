import FourFunction.Decimal.Basic

/-!
# Shortest decimals

The shortest decimal that reads back as a given number. The grids `10 ^ k`, `10 ^ (k - 1)`, … are tried
from the first power of ten above the value down, each grid a refinement of the one before, and the
first that holds a decimal reading back to the value ends the search. So the decimal found has as few
digits as possible and no trailing zero.
-/

namespace FourFunction

namespace Decimal

/-- Of the two multiples of `10 ^ exponent` next to the value of a rank, the one that reads back to that
rank. If both do it is the nearer one, and the greater one if they are equally near. -/
def neighbour? (rank : Nat) (exponent : Int) : Option Decimal :=
  let numerator := Binary64.units rank * powerOfTen (-exponent).toNat
  let denominator := Binary64.unitsPerOne * powerOfTen exponent.toNat
  let below : Decimal := ⟨numerator / denominator, exponent⟩
  let above : Decimal := ⟨numerator / denominator + 1, exponent⟩
  if above.rank = rank ∧ (below.rank ≠ rank ∨ denominator ≤ 2 * (numerator % denominator)) then some above
  else if below.rank = rank then some below
  else none

/-- The exponent of the first power of ten above the value of a positive rank. No such value is less
than `10 ^ -324`. -/
def leadingExponent (rank : Nat) : Int :=
  (Nat.toDigits 10 (Binary64.units rank * powerOfTen 324 / Binary64.unitsPerOne)).length - 324

/-- The value of a rank as a decimal with 1074 places, where every unit is on the grid. -/
def exact (rank : Nat) : Decimal :=
  ⟨Binary64.units rank * powerOfTen 1074 / Binary64.unitsPerOne, -1074⟩

/-- The shortest decimal that reads back to a positive rank. The last grid tried holds the value itself,
so the search succeeds. -/
def shortest (rank : Nat) : Decimal :=
  let top := leadingExponent rank
  ((List.range (top + 1075).toNat).findSome? fun (n : Nat) => neighbour? rank (top - n)).getD (exact rank)

end Decimal

end FourFunction
