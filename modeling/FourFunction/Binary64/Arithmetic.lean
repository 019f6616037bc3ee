import FourFunction.Binary64.Round

/-!
# Arithmetic on binary64 numbers

Each operation is the exact result on whole numbers of units, rounded once. What is left are the
conventions: a NaN spreads, an exact zero sum is positive unless both terms are negative, `0 * ∞`,
`0 / 0`, `∞ / ∞` and `∞ - ∞` are NaN, and anything else over zero is infinite.
-/

namespace FourFunction

namespace Binary64

/-- The value of a finite number in units. -/
def signedUnits (negative : Bool) (rank : Nat) : Int :=
  if negative then -(units rank : Int) else units rank

def add : Binary64 → Binary64 → Binary64
  | nan, _ => nan
  | _, nan => nan
  | infinite left, infinite right => if left = right then infinite left else nan
  | infinite left, finite .. => infinite left
  | finite .., infinite right => infinite right
  | finite left leftRank _, finite right rightRank _ =>
    let sum := signedUnits left leftRank + signedUnits right rightRank
    if sum = 0 then zero (left && right) else rounded (decide (sum < 0)) sum.natAbs 1

def sub (left right : Binary64) : Binary64 :=
  left.add right.neg

def mul : Binary64 → Binary64 → Binary64
  | nan, _ => nan
  | _, nan => nan
  | infinite left, infinite right => infinite (left != right)
  | infinite left, finite right rank _ => if rank = 0 then nan else infinite (left != right)
  | finite left rank _, infinite right => if rank = 0 then nan else infinite (left != right)
  | finite left leftRank _, finite right rightRank _ =>
    rounded (left != right) (units leftRank * units rightRank) unitsPerOne

def div : Binary64 → Binary64 → Binary64
  | nan, _ => nan
  | _, nan => nan
  | infinite _, infinite _ => nan
  | infinite left, finite right _ _ => infinite (left != right)
  | finite left _ _, infinite right => zero (left != right)
  | finite left leftRank _, finite right rightRank _ =>
    if rightRank = 0 then if leftRank = 0 then nan else infinite (left != right)
    else rounded (left != right) (units leftRank * unitsPerOne) (units rightRank)

end Binary64

end FourFunction
