import FourFunction.Binary64.Basic

/-!
# Bit patterns of binary64 numbers

The interchange form: the highest bit is the sign and the other 63 bits are the rank. Patterns above
the rank of infinity are all read as the one NaN, which is written as the quiet pattern without
payload.
-/

namespace FourFunction

namespace Binary64

def quietPattern : Nat := infinityRank + blockSize / 2

/-- The highest bit. -/
def signBit : Nat := 1 <<< 63

def signPattern (negative : Bool) : Nat :=
  if negative then signBit else 0

def toPattern : Binary64 → Nat
  | nan => quietPattern
  | infinite negative => signPattern negative + infinityRank
  | finite negative rank _ => signPattern negative + rank

/-- Reads the lowest 64 bits. -/
def ofPattern (pattern : Nat) : Binary64 :=
  let negative := pattern / signBit % 2 == 1
  let rank := pattern % signBit
  if infinityRank < rank then nan else ofRank negative rank

end Binary64

end FourFunction
