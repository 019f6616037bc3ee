import FourFunction.Binary64.Basic
import FourFunction.Rounding

/-!
# Rounding to binary64

`nearestRank` rounds an exact quotient of units to a rank, halves to the even rank. It is not bounded:
a result of `infinityRank` or more is an overflow, and `Binary64.ofRank` makes it infinite.
-/

namespace FourFunction

namespace Binary64

/-- Ranks near a quotient of units lie `2 ^ spacing` units apart. -/
def spacing (numerator denominator : Nat) : Nat :=
  (numerator / denominator).log2 - 52

/-- The rank nearest to `numerator / denominator` units, for a positive denominator. The quotient is
rounded to a multiple of the distance between ranks there. Each doubling of that distance is one block
further on, so rounding up to the first rank of the next block needs no case of its own. -/
def nearestRank (numerator denominator : Nat) : Nat :=
  let gap := spacing numerator denominator
  gap * blockSize + roundDiv numerator (denominator <<< gap)

/-- The number nearest to `numerator / denominator` units, with a sign. -/
def rounded (negative : Bool) (numerator denominator : Nat) : Binary64 :=
  ofRank negative (nearestRank numerator denominator)

end Binary64

end FourFunction
