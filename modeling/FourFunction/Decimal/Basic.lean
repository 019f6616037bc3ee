import FourFunction.Binary64.Round

/-!
# Decimals

A nonnegative decimal, and the rank of the binary64 number nearest to it. Both directions of the
calculator's number text go through `Decimal.rank`: reading rounds with it, and the shortest digits are
the shortest that it sends back.
-/

namespace FourFunction

/-- `10 ^ n`. -/
def powerOfTen (n : Nat) : Nat :=
  Nat.pow 10 n

/-- `coefficient * 10 ^ exponent`. -/
structure Decimal where
  coefficient : Nat
  exponent : Int
  deriving DecidableEq

namespace Decimal

/-- The value in units is `numerator / denominator`. -/
def numerator (d : Decimal) : Nat :=
  d.coefficient * powerOfTen d.exponent.toNat * Binary64.unitsPerOne

def denominator (d : Decimal) : Nat :=
  powerOfTen (-d.exponent).toNat

/-- The exponent is so low that the value is less than half a unit: the coefficient has `log2 + 1` bits,
one is `2 ^ 1074` units, and a power of ten takes away more than three bits. -/
def IsVanishing (d : Decimal) : Prop :=
  (d.coefficient.log2 + 1076 : Int) ≤ 3 * -d.exponent

instance (d : Decimal) : Decidable d.IsVanishing :=
  inferInstanceAs (Decidable (_ ≤ _))

/-- The rank of the nearest number, `infinityRank` if there is no finite one. Exponents far out of
range are decided without computing their power of ten. -/
def rank (d : Decimal) : Nat :=
  if d.coefficient = 0 ∨ d.IsVanishing then 0
  else if 309 ≤ d.exponent then infinityRank
  else min infinityRank (Binary64.nearestRank d.numerator d.denominator)

end Decimal

end FourFunction
