import FourFunction.Decimal.Basic
import FourFunction.Text

/-!
# Layouts of a decimal

How digits are set out once they are chosen: with a point and no exponent, or with one digit before
the point and an exponent. A fraction is written without the zeros at its end.
-/

namespace FourFunction

namespace Decimal

/-- The digits of a whole number, without superfluous zeros. -/
def wholeText (n : Nat) : Text :=
  Nat.toDigits 10 n

def integerText (n : Int) : Text :=
  if n < 0 then '-' :: wholeText n.natAbs else wholeText n.natAbs

def dropTrailingZeros (digits : Text) : Text :=
  (digits.reverse.dropWhile (· == '0')).reverse

/-- A fraction's digits, with a single zero where there are none. -/
def orZero (digits : Text) : Text :=
  if digits = [] then ['0'] else digits

/-! ### Positional layout

A number of places counts the digits behind the point: `scaled` over `10 ^ places`. -/

def wholePart (scaled places : Nat) : Text :=
  wholeText (scaled / powerOfTen places)

def fractionPart (scaled places : Nat) : Text :=
  dropTrailingZeros ((wholeText (scaled % powerOfTen places)).leftpad places '0')

/-- With a point always, and at least one digit behind it. -/
def pointed (d : Decimal) : Text :=
  let scaled := d.coefficient * powerOfTen d.exponent.toNat
  let places := (-d.exponent).toNat
  wholePart scaled places ++ '.' :: orZero (fractionPart scaled places)

/-- With a point only where a fraction follows. -/
def plain (scaled places : Nat) : Text :=
  let fraction := fractionPart scaled places
  wholePart scaled places ++ if fraction = [] then [] else '.' :: fraction

/-! ### Scientific layout -/

/-- One digit, a point, at least one digit, and the exponent behind a capital `E`. -/
def scientific (d : Decimal) : Text :=
  let digits := wholeText d.coefficient
  digits.take 1 ++ '.' :: orZero (digits.drop 1) ++ 'E' :: integerText (d.exponent + (digits.length - 1))

end Decimal

end FourFunction
