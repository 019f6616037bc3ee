import FourFunction.Decimal.Shortest
import FourFunction.Proofs.NearestRank

/-!
# The rank of a decimal

Reading a decimal as a number, and the decimals that read back. The exponents that `Decimal.rank` decides
early are decided as rounding would decide them, so the rank depends on the value of the decimal only.
Each way of choosing a shortest decimal ends in one of the given rank.
-/

namespace FourFunction

open Binary64

namespace Decimal

theorem powerOfTen_eq (n : Nat) : powerOfTen n = 10 ^ n :=
  rfl

theorem powerOfTen_zero : powerOfTen 0 = 1 :=
  rfl

theorem cast_powerOfTen (n : Nat) : (powerOfTen n : ℚ) = 10 ^ n := by
  rw [powerOfTen_eq]
  exact Nat.cast_pow 10 n

theorem powerOfTen_pos (n : Nat) : 0 < powerOfTen n :=
  Nat.pow_pos (by decide)

theorem cast_powerOfTen_pos (n : Nat) : (0 : ℚ) < powerOfTen n :=
  Nat.cast_pos.mpr (powerOfTen_pos n)

theorem powerOfTen_le {m n : Nat} (hle : m ≤ n) : powerOfTen m ≤ powerOfTen n :=
  Nat.pow_le_pow_right (by decide) hle

theorem one_shiftLeft_eq (n : Nat) : 1 <<< n = 2 ^ n :=
  Nat.one_shiftLeft n

theorem one_shiftLeft_dvd_powerOfTen (n : Nat) : 1 <<< n ∣ powerOfTen n := by
  rw [one_shiftLeft_eq, powerOfTen_eq]
  exact pow_dvd_pow_of_dvd (by decide) n

theorem unitsPerOne_eq : unitsPerOne = 2 ^ 1074 :=
  one_shiftLeft_eq 1074

theorem unitsPerOne_pos : 0 < unitsPerOne := by
  rw [unitsPerOne_eq]
  positivity

theorem cast_unitsPerOne_pos : (0 : ℚ) < unitsPerOne :=
  Nat.cast_pos.mpr unitsPerOne_pos

/-! ### Values -/

def value (d : Decimal) : ℚ :=
  d.coefficient * 10 ^ d.exponent

theorem ten_zpow_eq_div (exponent : Int) :
    (10 : ℚ) ^ exponent = powerOfTen exponent.toNat / powerOfTen (-exponent).toNat := by
  rw [cast_powerOfTen, cast_powerOfTen, ← zpow_natCast, ← zpow_natCast, ← zpow_sub₀ (by norm_num)]
  congr 1
  omega

theorem value_eq_div (d : Decimal) :
    d.value = d.coefficient * powerOfTen d.exponent.toNat / powerOfTen (-d.exponent).toNat := by
  rw [value, ten_zpow_eq_div, mul_div_assoc]

theorem denominator_pos (d : Decimal) : 0 < d.denominator :=
  powerOfTen_pos _

theorem numerator_div_denominator (d : Decimal) :
    (d.numerator / d.denominator : ℚ) = d.value * unitsPerOne := by
  rw [numerator, denominator, value_eq_div, Nat.cast_mul, Nat.cast_mul]
  ring

/-! ### The rank without shortcuts -/

/-- A coefficient has one bit more than its logarithm, and `10` is more than `2 ^ 3`. -/
theorem two_mul_lt_ten_pow {coefficient bits places : Nat}
    (hplaces : coefficient.log2 + bits + 2 ≤ 3 * places) :
    2 * (coefficient * 2 ^ bits) < 10 ^ places := by
  have hcoefficient : coefficient < 2 ^ (coefficient.log2 + 1) := Nat.lt_log2_self
  calc 2 * (coefficient * 2 ^ bits) < 2 * (2 ^ (coefficient.log2 + 1) * 2 ^ bits) := by gcongr
    _ = 2 ^ (coefficient.log2 + bits + 2) := by ring
    _ ≤ 2 ^ (3 * places) := Nat.pow_le_pow_right (by decide) hplaces
    _ = (2 ^ 3) ^ places := pow_mul 2 3 _
    _ ≤ 10 ^ places := Nat.pow_le_pow_left (by decide) _

theorem two_mul_numerator_lt_denominator {d : Decimal} (hvanishing : d.IsVanishing) :
    2 * d.numerator < d.denominator := by
  rw [IsVanishing] at hvanishing
  have hexponent : d.exponent.toNat = 0 := by omega
  rw [numerator, denominator, hexponent, unitsPerOne_eq, powerOfTen_eq, powerOfTen_eq, pow_zero, mul_one]
  exact two_mul_lt_ten_pow (by omega)

theorem infinityRank_le_nearestRank {d : Decimal} (hne : d.coefficient ≠ 0) (hlarge : 309 ≤ d.exponent) :
    infinityRank ≤ nearestRank d.numerator d.denominator := by
  have hexponent : (-d.exponent).toNat = 0 := by omega
  have hdenominator : d.denominator = 1 := by rw [denominator, hexponent]; rfl
  have hnumerator : powerOfTen 309 * unitsPerOne ≤ d.numerator := by
    have hone : 1 ≤ d.coefficient := Nat.one_le_iff_ne_zero.mpr hne
    have hpower : powerOfTen 309 ≤ powerOfTen d.exponent.toNat := powerOfTen_le (by omega)
    calc powerOfTen 309 * unitsPerOne = 1 * powerOfTen 309 * unitsPerOne := by rw [one_mul]
      _ ≤ d.coefficient * powerOfTen d.exponent.toNat * unitsPerOne := by gcongr
  have hlog : 2100 ≤ d.numerator.log2 := by
    have hbound : 2100 ≤ (powerOfTen 309 * unitsPerOne).log2 := by decide +kernel
    apply hbound.trans
    rw [Nat.log2_eq_log_two, Nat.log2_eq_log_two]
    exact Nat.log_mono_right hnumerator
  have hspacing : 2048 ≤ spacing d.numerator d.denominator := by
    rw [spacing, hdenominator, Nat.div_one]
    omega
  calc infinityRank ≤ 2048 * blockSize := by decide
    _ ≤ spacing d.numerator d.denominator * blockSize := Nat.mul_le_mul_right _ hspacing
    _ ≤ nearestRank d.numerator d.denominator := Nat.le_add_right _ _

theorem rank_eq (d : Decimal) : d.rank = min infinityRank (nearestRank d.numerator d.denominator) := by
  rw [rank]
  split
  · rename_i hzero
    have hless : 2 * d.numerator < d.denominator := by
      rcases hzero with hnone | hvanishing
      · rw [numerator, hnone, Nat.zero_mul, Nat.zero_mul]
        exact d.denominator_pos
      · exact two_mul_numerator_lt_denominator hvanishing
    rw [nearestRank_eq_zero hless, Nat.min_zero]
  · rename_i hnonzero
    split
    · rename_i hlarge
      exact (Nat.min_eq_left (infinityRank_le_nearestRank (not_or.mp hnonzero).1 hlarge)).symm
    · rfl

/-- A rank beyond the last finite one is cut off, and is infinite with or without that. -/
theorem ofRank_rank (negative : Bool) (d : Decimal) :
    ofRank negative d.rank = rounded negative d.numerator d.denominator := by
  rw [rank_eq, rounded, ofRank, ofRank]
  by_cases hfinite : nearestRank d.numerator d.denominator < infinityRank
  · have hmin := Nat.min_eq_right hfinite.le
    simp only [hmin, hfinite, dif_pos]
  · rw [dif_neg hfinite, dif_neg (by omega)]

/-- Only the value of a decimal counts. -/
theorem rank_congr {left right : Decimal} (hvalue : left.value = right.value) : left.rank = right.rank := by
  have hquotient : (left.numerator / left.denominator : ℚ) = right.numerator / right.denominator := by
    rw [numerator_div_denominator, numerator_div_denominator, hvalue]
  rw [rank_eq, rank_eq, nearestRank_congr left.denominator_pos right.denominator_pos hquotient]

theorem rank_mono {left right : Decimal} (hvalue : left.value ≤ right.value) : left.rank ≤ right.rank := by
  have hquotient : (left.numerator / left.denominator : ℚ) ≤ right.numerator / right.denominator := by
    rw [numerator_div_denominator, numerator_div_denominator]
    exact mul_le_mul_of_nonneg_right hvalue cast_unitsPerOne_pos.le
  rw [rank_eq, rank_eq]
  exact min_le_min_left _ (nearestRank_mono left.denominator_pos right.denominator_pos hquotient)

theorem rank_of_between {low middle high : Decimal} (hsame : low.rank = high.rank)
    (hlow : low.value ≤ middle.value) (hhigh : middle.value ≤ high.value) : middle.rank = high.rank :=
  le_antisymm (rank_mono hhigh) (hsame ▸ rank_mono hlow)

theorem value_lt_of_rank_lt {left right : Decimal} (hrank : left.rank < right.rank) :
    left.value < right.value :=
  lt_of_not_ge fun hvalue => hrank.not_ge (rank_mono hvalue)

theorem rank_of_value {d : Decimal} {rank : Nat} (hvalue : d.value * unitsPerOne = units rank)
    (hrank : rank < infinityRank) : d.rank = rank := by
  rw [← numerator_div_denominator] at hvalue
  rw [rank_eq, nearestRank_eq_of_units d.denominator_pos hvalue, Nat.min_eq_right hrank.le]

/-! ### Shortest decimals read back -/

theorem rank_of_neighbour? {rank : Nat} {exponent : Int} {d : Decimal}
    (hfound : neighbour? rank exponent = some d) : d.rank = rank := by
  rw [neighbour?] at hfound
  split at hfound
  · rename_i habove
    obtain rfl := Option.some.inj hfound
    exact habove.1
  · split at hfound
    · rename_i hbelow
      obtain rfl := Option.some.inj hfound
      exact hbelow
    · cases hfound

theorem value_exact (rank : Nat) : (exact rank).value * unitsPerOne = units rank := by
  have hdvd : unitsPerOne ∣ powerOfTen 1074 := one_shiftLeft_dvd_powerOfTen 1074
  have hcoefficient : (exact rank).coefficient * unitsPerOne = units rank * powerOfTen 1074 :=
    Nat.div_mul_cancel (Dvd.dvd.mul_left hdvd _)
  have hcast : ((exact rank).coefficient * unitsPerOne : ℚ) = units rank * powerOfTen 1074 := by
    exact_mod_cast hcoefficient
  have hexponent : (exact rank).exponent = -(1074 : Nat) := rfl
  rw [value, hexponent, mul_right_comm, hcast, zpow_neg, zpow_natCast, cast_powerOfTen]
  exact mul_inv_cancel_right₀ (by positivity) _

theorem rank_exact {rank : Nat} (hrank : rank < infinityRank) : (exact rank).rank = rank :=
  rank_of_value (value_exact rank) hrank

theorem rank_shortest {rank : Nat} (hrank : rank < infinityRank) : (shortest rank).rank = rank := by
  rw [shortest]
  generalize hsearch : List.findSome? _ _ = found
  cases found with
  | none => exact rank_exact hrank
  | some d =>
    obtain ⟨n, _, hfound⟩ := List.exists_of_findSome?_eq_some hsearch
    exact rank_of_neighbour? hfound

end Decimal

end FourFunction
