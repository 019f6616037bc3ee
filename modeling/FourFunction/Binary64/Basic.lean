/-!
# Binary64 numbers

The numbers the calculator computes with. The nonnegative finite ones are counted off in order: the
one with rank `r` is the `r`-th from zero, and infinity follows the last. All of them are multiples of
`2 ^ -1074`, so `units` gives the value of a rank as a whole number of these units. The rest of the
library compares, adds and rounds values as whole numbers of units and never looks inside a rank.
-/

namespace FourFunction

/-- Ranks come in blocks of `2 ^ 52`, each with equal gaps between its values. -/
def blockSize : Nat := 1 <<< 52

/-- The rank of infinity; the ranks below it are finite. -/
def infinityRank : Nat := 2047 * blockSize

/-- A finite number keeps its sign, zero included. There is one NaN. -/
inductive Binary64
  | nan
  | infinite (negative : Bool)
  | finite (negative : Bool) (rank : Nat) (rank_lt : rank < infinityRank)
  deriving DecidableEq

namespace Binary64

/-- The value of a rank in units of `2 ^ -1074`. In the first two blocks neighbours lie one unit apart;
every later block starts at a power of two, and its neighbours lie twice as far apart as those of the
block before. -/
def units (rank : Nat) : Nat :=
  if rank < blockSize then rank else (blockSize + rank % blockSize) <<< (rank / blockSize - 1)

/-- How many units make one. -/
def unitsPerOne : Nat := 1 <<< 1074

/-- The number with a sign and a rank; a rank from `infinityRank` on is infinite. -/
def ofRank (negative : Bool) (rank : Nat) : Binary64 :=
  if h : rank < infinityRank then finite negative rank h else infinite negative

def zero (negative : Bool) : Binary64 :=
  finite negative 0 (by decide)

def isFinite : Binary64 → Bool
  | finite .. => true
  | _ => false

def neg : Binary64 → Binary64
  | nan => nan
  | infinite negative => infinite !negative
  | finite negative rank h => finite (!negative) rank h

end Binary64

end FourFunction
