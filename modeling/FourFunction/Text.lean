/-!
# Text

Text is a list of characters. This module holds the class of blank characters and the two places where
the calculator ignores them: at the end of an entry that is corrected, and between keys. Only `isBlank`
knows which characters are blank.
-/

namespace FourFunction

/-- A character is one Unicode scalar value. -/
abbrev Text := List Char

namespace Text

/-- The Unicode property White_Space, as ranges of code points with both ends included. -/
def blankRanges : List (Nat × Nat) :=
  [(0x09, 0x0D), (0x20, 0x20), (0x85, 0x85), (0xA0, 0xA0), (0x1680, 0x1680), (0x2000, 0x200A),
    (0x2028, 0x2029), (0x202F, 0x202F), (0x205F, 0x205F), (0x3000, 0x3000)]

def isBlank (c : Char) : Bool :=
  blankRanges.any fun range => range.1 ≤ c.toNat && c.toNat ≤ range.2

/-- The text without its blanks, wherever they stand. -/
def withoutBlanks (text : Text) : Text :=
  text.filter fun c => !isBlank c

/-- The text without the blanks at its end. -/
def trimEnd (text : Text) : Text :=
  (text.reverse.dropWhile isBlank).reverse

end Text

end FourFunction
