/-!
# Rounding a quotient

Every rounding in the calculator, of a sum, a product, a numeral or a display, is `roundDiv` on whole
numbers: the nearest whole number, and the even one of two that are equally near.
-/

namespace FourFunction

/-- The whole number nearest to `a / b`, for a positive `b`; halfway between two, the even one. -/
def roundDiv (a b : Nat) : Nat :=
  let below := a / b
  let excess := 2 * (a % b)
  if excess < b ∨ (excess = b ∧ below % 2 = 0) then below else below + 1

end FourFunction
