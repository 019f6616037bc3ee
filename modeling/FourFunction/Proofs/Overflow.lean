import FourFunction.Proofs.DecimalRank

/-!
# Overflow

Where the finite numbers end. A quotient is rounded to a finite number just if it is less than the bound
halfway between the last finite number and the power of two that would be next. At the bound itself the
two are equally near, and it is the rank of infinity that is even.
-/

namespace FourFunction

/-- The last finite number is `2 ^ 971` below `2 ^ 1024`. -/
@[irreducible]
def overflowBound : Nat :=
  2 ^ 1024 - 2 ^ 970

namespace Binary64

theorem two_mul_overflowBound :
    2 * (overflowBound * unitsPerOne) = units (infinityRank - 1) + units infinityRank := by
  decide +kernel

theorem nearestRank_overflowBound : nearestRank (overflowBound * unitsPerOne) 1 = infinityRank := by
  decide +kernel

theorem nearestRank_lt_infinityRank_iff (numerator : Nat) {denominator : Nat} (hpos : 0 < denominator) :
    nearestRank numerator denominator < infinityRank ↔
      (numerator / denominator : ℚ) < (overflowBound * unitsPerOne : Nat) := by
  have hmiddle : (2 : ℚ) * (overflowBound * unitsPerOne : Nat) =
      units (infinityRank - 1) + units infinityRank := by
    exact_mod_cast two_mul_overflowBound
  have hstep : (units (infinityRank - 1) : ℚ) < units infinityRank := by
    exact_mod_cast units_strictMono (by decide)
  have hnearest := abs_sub_units_nearestRank_le numerator hpos
  rcases lt_trichotomy (numerator / denominator : ℚ) (overflowBound * unitsPerOne : Nat) with hlt | heq | hgt
  · refine iff_of_true ?_ hlt
    by_contra hinfinite
    have hbeyond : (units infinityRank : ℚ) ≤ units (nearestRank numerator denominator) := by
      exact_mod_cast units_strictMono.monotone (not_lt.mp hinfinite)
    -- The last finite rank is nearer than infinity and all that follows it.
    have hlast : |(numerator / denominator : ℚ) - units (infinityRank - 1)| <
        units infinityRank - numerator / denominator := by
      rw [abs_lt]
      constructor <;> linarith
    linarith [hnearest (infinityRank - 1), neg_abs_le
      ((numerator / denominator : ℚ) - units (nearestRank numerator denominator))]
  · have hquotient : (numerator / denominator : ℚ) = (overflowBound * unitsPerOne : Nat) / (1 : Nat) := by
      rw [heq, Nat.cast_one, div_one]
    rw [nearestRank_congr hpos Nat.one_pos hquotient, nearestRank_overflowBound]
    exact iff_of_false (lt_irrefl _) heq.not_lt
  · refine iff_of_false ?_ hgt.not_gt
    intro hfinite
    have hbelow : (units (nearestRank numerator denominator) : ℚ) ≤ units (infinityRank - 1) := by
      exact_mod_cast units_strictMono.monotone (Nat.le_sub_one_of_lt hfinite)
    have hinfinity : |(numerator / denominator : ℚ) - units infinityRank| <
        numerator / denominator - units (infinityRank - 1) := by
      rw [abs_lt]
      constructor <;> linarith
    linarith [hnearest infinityRank, le_abs_self
      ((numerator / denominator : ℚ) - units (nearestRank numerator denominator))]

theorem isFinite_ofRank (negative : Bool) (rank : Nat) :
    (ofRank negative rank).isFinite = true ↔ rank < infinityRank := by
  rw [ofRank]
  split <;> simp_all [isFinite]

/-- The number nearest to a whole number. -/
def nearestWhole (n : Nat) : Binary64 :=
  rounded false (n * unitsPerOne) 1

theorem isFinite_nearestWhole (n : Nat) : (nearestWhole n).isFinite = true ↔ n < overflowBound := by
  rw [nearestWhole, rounded, isFinite_ofRank, nearestRank_lt_infinityRank_iff _ Nat.one_pos, Nat.cast_one,
    div_one, Nat.cast_lt]
  exact Nat.mul_lt_mul_right Decimal.unitsPerOne_pos

end Binary64

end FourFunction
