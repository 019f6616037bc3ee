import Mathlib.Algebra.Order.Floor.Semifield
import Mathlib.Data.Rat.Floor
import Mathlib.Data.Nat.Log
import Mathlib.Tactic.FieldSimp
import Mathlib.Tactic.Linarith
import Mathlib.Tactic.Positivity
import Mathlib.Tactic.Ring
import FourFunction.Binary64.Round

/-!
# Rounding to the nearest rank

What rounding does, as facts about the exact quotient. `roundDiv` gives the whole number that
`RoundsTo` singles out, so it depends on the quotient only, and so does `nearestRank`. The value of a
rank is strictly increasing, no rank is nearer to the quotient than the nearest rank, and the quotient
of a rank goes back to it. The rest of the proofs reach `units` and `nearestRank` through these facts
and never look at blocks and gaps.
-/

namespace FourFunction

/-! ### Rounded quotients -/

/-- `n` is the whole number nearest to `q`, and the even one of two that are equally near. -/
def RoundsTo (q : ℚ) (n : Nat) : Prop :=
  |q - n| < 1 / 2 ∨ |q - n| = 1 / 2 ∧ Even n

/-- The distances to two whole numbers add up to one at least. -/
theorem one_le_distances {n k : Nat} (hne : n ≠ k) (q : ℚ) : 1 ≤ |q - n| + |q - k| := by
  rcases Nat.lt_or_gt_of_ne hne with hlt | hgt
  · have hstep : (n : ℚ) + 1 ≤ k := by exact_mod_cast hlt
    linarith [le_abs_self (q - n), neg_abs_le (q - k)]
  · have hstep : (k : ℚ) + 1 ≤ n := by exact_mod_cast hgt
    linarith [neg_abs_le (q - n), le_abs_self (q - k)]

/-- Of two numbers in order, only the same number can be nearer to the greater of two points, or as near,
and nearer to the less. -/
theorem eq_of_abs_sub_le_of_lt {q r a b : ℚ} (hqr : q ≤ r) (hba : b < a) (hq : |q - a| ≤ |q - b|)
    (hr : |r - b| ≤ |r - a|) : q = r := by
  apply le_antisymm hqr
  by_contra hlt
  rw [not_le] at hlt
  rcases le_or_gt (a + b) (2 * q) with habove | hbelow
  · have hfar : |r - a| < r - b := by
      rw [abs_lt]
      constructor <;> linarith
    linarith [le_abs_self (r - b)]
  · have hfar : |q - b| < a - q := by
      rw [abs_lt]
      constructor <;> linarith
    linarith [neg_abs_le (q - a)]

namespace RoundsTo

variable {q : ℚ} {n k : Nat}

theorem abs_sub_le_half (hround : RoundsTo q n) : |q - n| ≤ 1 / 2 := by
  rcases hround with hnear | ⟨htie, _⟩
  · exact hnear.le
  · exact htie.le

theorem abs_sub_le_abs_sub (hround : RoundsTo q n) (k : Nat) : |q - n| ≤ |q - k| := by
  by_cases hne : n = k
  · rw [hne]
  · have hapart := one_le_distances hne q
    linarith [hround.abs_sub_le_half]

theorem even_of_half_le (hround : RoundsTo q n) (hhalf : 1 / 2 ≤ |q - n|) : Even n := by
  rcases hround with hnear | ⟨_, heven⟩
  · exact absurd hhalf (not_le.mpr hnear)
  · exact heven

/-- What lies no farther from the rounded number than the quotient does rounds to it too. -/
theorem of_abs_sub_le {other : ℚ} (hround : RoundsTo q n) (hle : |other - n| ≤ |q - n|) :
    RoundsTo other n := by
  rcases lt_or_eq_of_le (hle.trans hround.abs_sub_le_half) with hnear | htie
  · exact .inl hnear
  · exact .inr ⟨htie, hround.even_of_half_le (htie ▸ hle)⟩

/-- Of two that are equally near only one is even. -/
theorem unique (hn : RoundsTo q n) (hk : RoundsTo q k) : n = k := by
  by_contra hne
  have hapart := one_le_distances hne q
  have hnHalf := hn.abs_sub_le_half
  have hkHalf := hk.abs_sub_le_half
  have hnEven : Even n := hn.even_of_half_le (by linarith)
  have hkEven : Even k := hk.even_of_half_le (by linarith)
  have htwo : (2 : ℚ) ≤ |(n : ℚ) - k| := by
    have hsub : 2 ≤ |(n : ℤ) - k| := by
      obtain ⟨a, rfl⟩ := hnEven
      obtain ⟨b, rfl⟩ := hkEven
      rw [le_abs]
      omega
    exact_mod_cast hsub
  have htriangle : |(n : ℚ) - k| ≤ |q - n| + |q - k| := by
    rw [abs_sub_comm q n]
    exact abs_sub_le _ _ _
  linarith

theorem mono {r : ℚ} (hn : RoundsTo q n) (hk : RoundsTo r k) (hqr : q ≤ r) : n ≤ k := by
  by_contra hlt
  have hkn : (k : ℚ) < n := by exact_mod_cast not_le.mp hlt
  obtain rfl := eq_of_abs_sub_le_of_lt hqr hkn (hn.abs_sub_le_abs_sub k) (hk.abs_sub_le_abs_sub n)
  exact hlt (hn.unique hk).le

theorem le_of_le_bound {bound : Nat} (hround : RoundsTo q n) (hq : q ≤ bound) : n ≤ bound := by
  have hnear := (abs_le.mp hround.abs_sub_le_half).1
  have hlt : (n : ℚ) < bound + 1 := by linarith
  exact Nat.lt_succ_iff.mp (by exact_mod_cast hlt)

theorem bound_le_of_le {bound : Nat} (hround : RoundsTo q n) (hq : (bound : ℚ) ≤ q) : bound ≤ n := by
  have hnear := (abs_le.mp hround.abs_sub_le_half).2
  have hlt : (bound : ℚ) < n + 1 := by linarith
  exact Nat.lt_succ_iff.mp (by exact_mod_cast hlt)

end RoundsTo

/-- The part of the quotient behind the point, compared with one half as `roundDiv` does. -/
theorem fraction_trichotomy (a : Nat) {b : Nat} (hb : 0 < b) :
    let excess : ℚ := (a % b : Nat) / b
    (2 * (a % b) < b → excess < 1 / 2) ∧ (2 * (a % b) = b → excess = 1 / 2) ∧
      (b < 2 * (a % b) → 1 / 2 < excess) := by
  intro excess
  have hbPos : (0 : ℚ) < b := by exact_mod_cast hb
  refine ⟨fun hless => ?_, fun hhalf => ?_, fun hmore => ?_⟩
  · have hcast : (2 : ℚ) * (a % b : Nat) < b := by exact_mod_cast hless
    rw [div_lt_iff₀ hbPos]
    linarith
  · have hcast : (2 : ℚ) * (a % b : Nat) = b := by exact_mod_cast hhalf
    rw [div_eq_iff hbPos.ne']
    linarith
  · have hcast : (b : ℚ) < 2 * (a % b : Nat) := by exact_mod_cast hmore
    rw [lt_div_iff₀ hbPos]
    linarith

theorem roundsTo_roundDiv (a : Nat) {b : Nat} (hb : 0 < b) : RoundsTo (a / b) (roundDiv a b) := by
  obtain ⟨hless, hhalf, hmore⟩ := fraction_trichotomy a hb
  have hquotient : (a / b : ℚ) = (a / b : Nat) + (a % b : Nat) / b := by
    have hdivision : ((b * (a / b) + a % b : Nat) : ℚ) = a := by rw [Nat.div_add_mod]
    push_cast at hdivision
    rw [← hdivision]
    field_simp
  have hnonneg : (0 : ℚ) ≤ (a % b : Nat) / b := by positivity
  have hltOne : ((a % b : Nat) : ℚ) / b < 1 := by
    rw [div_lt_one (by exact_mod_cast hb)]
    exact_mod_cast Nat.mod_lt a hb
  have hbelow : |(a / b : ℚ) - (a / b : Nat)| = (a % b : Nat) / b := by
    rw [hquotient, add_sub_cancel_left, abs_of_nonneg hnonneg]
  have habove : |(a / b : ℚ) - (a / b + 1 : Nat)| = 1 - (a % b : Nat) / b := by
    rw [hquotient, abs_sub_comm, abs_of_nonneg] <;> push_cast <;> linarith
  rw [roundDiv]
  rcases Nat.lt_trichotomy (2 * (a % b)) b with hlt | heq | hgt
  · rw [if_pos (.inl hlt)]
    exact .inl (by rw [hbelow]; exact hless hlt)
  · by_cases heven : a / b % 2 = 0
    · rw [if_pos (.inr ⟨heq, heven⟩)]
      exact .inr ⟨by rw [hbelow]; exact hhalf heq, Nat.even_iff.mpr heven⟩
    · rw [if_neg (by omega)]
      refine .inr ⟨?_, by rw [Nat.even_iff]; omega⟩
      rw [habove, hhalf heq]
      norm_num
  · rw [if_neg (by omega)]
    left
    rw [habove]
    linarith [hmore hgt]

theorem roundDiv_eq_of_roundsTo {a b n : Nat} (hb : 0 < b) (hround : RoundsTo (a / b) n) :
    roundDiv a b = n :=
  (roundsTo_roundDiv a hb).unique hround

namespace Binary64

/-! ### The values of the ranks -/

theorem blockSize_eq : blockSize = 2 ^ 52 := by
  rw [blockSize, Nat.one_shiftLeft]

/-- The ranks `gap * blockSize + steps` of this kind have the multiples of `2 ^ gap` as their values. -/
def OnGrid (gap steps : Nat) : Prop :=
  steps ≤ 2 * blockSize ∧ (gap = 0 ∨ blockSize ≤ steps)

theorem units_grid {gap steps : Nat} (hgrid : OnGrid gap steps) :
    units (gap * blockSize + steps) = steps * 2 ^ gap := by
  obtain ⟨hsteps, hgap⟩ := hgrid
  have hpos : 0 < blockSize := by decide
  rw [units]
  rcases Nat.lt_or_ge steps blockSize with hless | hmore
  · obtain rfl : gap = 0 := hgap.resolve_right (by omega)
    simp [hless]
  · rw [if_neg (by nlinarith)]
    rcases Nat.lt_or_ge steps (2 * blockSize) with hwithin | hnext
    · have hsplit : gap * blockSize + steps = steps - blockSize + blockSize * (gap + 1) := by
        have hexpand : blockSize * (gap + 1) = gap * blockSize + blockSize := by ring
        omega
      have hrest : steps - blockSize < blockSize := by omega
      rw [hsplit, Nat.add_mul_mod_self_left, Nat.mod_eq_of_lt hrest, Nat.add_mul_div_left _ _ hpos,
        Nat.div_eq_of_lt hrest, Nat.shiftLeft_eq, Nat.add_sub_cancel' hmore, Nat.zero_add,
        Nat.add_sub_cancel]
    · obtain rfl : steps = 2 * blockSize := by omega
      have hsplit : gap * blockSize + 2 * blockSize = blockSize * (gap + 2) := by ring
      rw [hsplit, Nat.mul_mod_right, Nat.mul_div_cancel_left _ hpos, Nat.shiftLeft_eq]
      have hgapSucc : gap + 2 - 1 = gap + 1 := by omega
      rw [hgapSucc]
      ring

theorem exists_grid (rank : Nat) :
    ∃ gap steps, rank = gap * blockSize + steps ∧ steps < 2 * blockSize ∧ OnGrid gap steps := by
  rcases Nat.lt_or_ge rank blockSize with hless | hmore
  · exact ⟨0, rank, by simp, by omega, by omega, .inl rfl⟩
  · have hpos : 0 < blockSize := by decide
    have hdivision := Nat.div_add_mod rank blockSize
    have hrest := Nat.mod_lt rank hpos
    have hblock := Nat.div_pos hmore hpos
    refine ⟨rank / blockSize - 1, blockSize + rank % blockSize, ?_, by omega, by omega, .inr (by omega)⟩
    rw [Nat.sub_mul, Nat.mul_comm]
    have hone : blockSize * 1 ≤ blockSize * (rank / blockSize) := Nat.mul_le_mul_left _ hblock
    omega

theorem units_zero : units 0 = 0 :=
  rfl

theorem units_lt_units_succ (rank : Nat) : units rank < units (rank + 1) := by
  obtain ⟨gap, steps, rfl, hlt, hgrid⟩ := exists_grid rank
  have hnext : OnGrid gap (steps + 1) := ⟨hlt, hgrid.2.imp_right Nat.le_succ_of_le⟩
  rw [units_grid hgrid, Nat.add_assoc, units_grid hnext]
  exact Nat.mul_lt_mul_of_pos_right (Nat.lt_succ_self _) (Nat.two_pow_pos gap)

theorem units_strictMono : StrictMono units :=
  strictMono_nat_of_lt_succ units_lt_units_succ

theorem units_ne_zero {rank : Nat} (hne : rank ≠ 0) : units rank ≠ 0 := by
  rw [← units_zero]
  exact units_strictMono.injective.ne hne

/-- From the first value with a distance on, all values are multiples of it. -/
theorem dvd_units {gap rank : Nat} (hfar : blockSize * 2 ^ gap ≤ units rank) : 2 ^ gap ∣ units rank := by
  obtain ⟨here, steps, rfl, hlt, hgrid⟩ := exists_grid rank
  rw [units_grid hgrid] at hfar ⊢
  have hpowers : blockSize * 2 ^ gap < blockSize * 2 ^ (here + 1) := by
    calc blockSize * 2 ^ gap ≤ steps * 2 ^ here := hfar
      _ < 2 * blockSize * 2 ^ here := Nat.mul_lt_mul_of_pos_right hlt (Nat.two_pow_pos here)
      _ = blockSize * 2 ^ (here + 1) := by ring
  have hgap : gap < here + 1 := (Nat.pow_lt_pow_iff_right (by decide)).mp (Nat.lt_of_mul_lt_mul_left hpowers)
  exact Dvd.dvd.mul_left (pow_dvd_pow 2 (by omega)) steps

/-! ### The nearest rank -/

variable {numerator denominator : Nat}

/-- The quotient lies in the range where neighbours have the distance that `spacing` gives. -/
theorem spacing_spec (numerator denominator : Nat) :
    numerator / denominator < 2 * blockSize * 2 ^ spacing numerator denominator ∧
      (spacing numerator denominator = 0 ∨
        blockSize * 2 ^ spacing numerator denominator ≤ numerator / denominator) := by
  rw [blockSize_eq, spacing]
  generalize numerator / denominator = quotient
  constructor
  · calc quotient < 2 ^ (quotient.log2 + 1) := Nat.lt_log2_self
      _ ≤ 2 ^ (1 + 52 + (quotient.log2 - 52)) := Nat.pow_le_pow_right (by decide) (by omega)
      _ = 2 * 2 ^ 52 * 2 ^ (quotient.log2 - 52) := by rw [pow_add, pow_add, pow_one]
  · by_cases hgap : quotient.log2 - 52 = 0
    · exact .inl hgap
    · right
      have hne : quotient ≠ 0 := by
        rintro rfl
        exact hgap rfl
      calc 2 ^ 52 * 2 ^ (quotient.log2 - 52) = 2 ^ quotient.log2 := by
            rw [← pow_add]
            congr 1
            omega
        _ ≤ quotient := Nat.log2_self_le hne

theorem shiftLeft_pos (hpos : 0 < denominator) (gap : Nat) : 0 < denominator <<< gap := by
  rw [Nat.shiftLeft_eq]
  positivity

theorem div_shiftLeft (numerator denominator gap : Nat) :
    (numerator : ℚ) / (denominator <<< gap : Nat) = numerator / denominator / 2 ^ gap := by
  rw [Nat.shiftLeft_eq, div_div]
  push_cast
  rfl

/-- The nearest rank as a point of the grid at the quotient. -/
theorem exists_nearestRank_eq (hpos : 0 < denominator) :
    ∃ gap steps, nearestRank numerator denominator = gap * blockSize + steps ∧ OnGrid gap steps ∧
      RoundsTo (numerator / denominator / 2 ^ gap) steps ∧
      (gap = 0 ∨ (blockSize * 2 ^ gap : ℚ) ≤ numerator / denominator) := by
  obtain ⟨hupper, hlower⟩ := spacing_spec numerator denominator
  generalize hgap : spacing numerator denominator = gap at hupper hlower
  have hround := roundsTo_roundDiv numerator (shiftLeft_pos hpos gap)
  rw [div_shiftLeft] at hround
  have hdenominator : (0 : ℚ) < denominator := by exact_mod_cast hpos
  have hpower : (0 : ℚ) < 2 ^ gap := by positivity
  have hlowerCast : gap = 0 ∨ (blockSize * 2 ^ gap : ℚ) ≤ numerator / denominator := by
    refine hlower.imp_right fun hle => ?_
    rw [le_div_iff₀ hdenominator]
    exact_mod_cast (Nat.le_div_iff_mul_le hpos).mp hle
  refine ⟨gap, roundDiv numerator (denominator <<< gap), ?_, ⟨?_, ?_⟩, hround, hlowerCast⟩
  · rw [nearestRank, hgap]
  · apply hround.le_of_le_bound
    rw [div_le_iff₀ hpower, div_le_iff₀ hdenominator]
    exact_mod_cast ((Nat.div_lt_iff_lt_mul hpos).mp hupper).le
  · refine hlowerCast.imp_right fun hle => ?_
    apply hround.bound_le_of_le
    rwa [le_div_iff₀ hpower]

/-- A distance to a multiple of the distance between ranks, counted in these. -/
theorem abs_sub_multiple (q : ℚ) (gap n : Nat) :
    |q - (n * 2 ^ gap : Nat)| = |q / 2 ^ gap - n| * 2 ^ gap := by
  have hpower : (0 : ℚ) < 2 ^ gap := by positivity
  rw [← abs_of_pos hpower, ← abs_mul, abs_of_pos hpower, sub_mul, div_mul_cancel₀ _ hpower.ne']
  push_cast
  rfl

section

variable {q : ℚ} {gap steps rank : Nat}

/-- Among the multiples of the distance between ranks, the one that `roundDiv` chooses is the nearest. -/
theorem abs_sub_multiple_le (hround : RoundsTo (q / 2 ^ gap) steps) (n : Nat) :
    |q - (steps * 2 ^ gap : Nat)| ≤ |q - (n * 2 ^ gap : Nat)| := by
  rw [abs_sub_multiple, abs_sub_multiple]
  exact mul_le_mul_of_nonneg_right (hround.abs_sub_le_abs_sub n) (by positivity)

/-- A rank that is no such multiple lies below the block of the quotient, and its distance is greater. -/
theorem abs_sub_multiple_lt (hround : RoundsTo (q / 2 ^ gap) steps)
    (hlower : gap = 0 ∨ (blockSize * 2 ^ gap : ℚ) ≤ q) (hdvd : ¬2 ^ gap ∣ units rank) :
    |q - (steps * 2 ^ gap : Nat)| < |q - units rank| := by
  have hnear : units rank < blockSize * 2 ^ gap := Nat.lt_of_not_le (mt dvd_units hdvd)
  have hnearCast : (units rank : ℚ) < blockSize * 2 ^ gap := by exact_mod_cast hnear
  have hfar : (blockSize * 2 ^ gap : ℚ) ≤ q := by
    apply hlower.resolve_left
    rintro rfl
    exact hdvd (by simp)
  calc |q - (steps * 2 ^ gap : Nat)| ≤ |q - (blockSize * 2 ^ gap : Nat)| := abs_sub_multiple_le hround _
    _ = q - blockSize * 2 ^ gap := by
      push_cast
      exact abs_of_nonneg (by linarith)
    _ < q - units rank := by linarith
    _ ≤ |q - units rank| := le_abs_self _

end

/-- No rank is nearer to the quotient. -/
theorem abs_sub_units_nearestRank_le (numerator : Nat) (hpos : 0 < denominator) (rank : Nat) :
    |(numerator / denominator : ℚ) - units (nearestRank numerator denominator)| ≤
      |(numerator / denominator : ℚ) - units rank| := by
  obtain ⟨gap, steps, heq, hgrid, hround, hlower⟩ := exists_nearestRank_eq hpos
  rw [heq, units_grid hgrid]
  by_cases hdvd : 2 ^ gap ∣ units rank
  · obtain ⟨k, hk⟩ := hdvd
    rw [hk, Nat.mul_comm (2 ^ gap)]
    exact abs_sub_multiple_le hround k
  · exact (abs_sub_multiple_lt hround hlower hdvd).le

/-- If another rank is as near, the nearest rank is even. -/
theorem even_nearestRank_of_tie {rank : Nat} (hpos : 0 < denominator)
    (hne : rank ≠ nearestRank numerator denominator)
    (htie : |(numerator / denominator : ℚ) - units (nearestRank numerator denominator)| =
      |(numerator / denominator : ℚ) - units rank|) :
    Even (nearestRank numerator denominator) := by
  obtain ⟨gap, steps, heq, hgrid, hround, hlower⟩ := exists_nearestRank_eq hpos
  have hunits : units rank ≠ steps * 2 ^ gap := by
    rw [← units_grid hgrid, ← heq]
    exact units_strictMono.injective.ne hne
  rw [heq, units_grid hgrid] at htie
  have hdvd : 2 ^ gap ∣ units rank := by
    by_contra hdvd
    exact absurd htie (abs_sub_multiple_lt hround hlower hdvd).ne
  obtain ⟨k, hk⟩ := hdvd
  rw [Nat.mul_comm] at hk
  rw [hk, abs_sub_multiple, abs_sub_multiple] at htie
  have hsame := mul_right_cancel₀ (by positivity) htie
  have hapart : steps ≠ k := by
    rintro rfl
    exact hunits hk
  have hdistances := one_le_distances hapart (numerator / denominator / 2 ^ gap)
  have hsteps : Even steps := hround.even_of_half_le (by linarith)
  have hblock : Even blockSize := by decide
  rw [heq]
  exact (hblock.mul_left gap).add hsteps

theorem nearestRank_eq_zero (hless : 2 * numerator < denominator) :
    nearestRank numerator denominator = 0 := by
  have hpos : 0 < denominator := Nat.zero_lt_of_lt hless
  have hhalf : (numerator / denominator : ℚ) < 1 / 2 := by
    rw [div_lt_iff₀ (by exact_mod_cast hpos)]
    have hcast : (2 * numerator : ℚ) < denominator := by exact_mod_cast hless
    linarith
  have hnonneg : (0 : ℚ) ≤ numerator / denominator := by positivity
  have hnearest := abs_sub_units_nearestRank_le numerator hpos 0
  rw [units_zero, Nat.cast_zero, sub_zero, abs_of_nonneg hnonneg] at hnearest
  have hunits : (units (nearestRank numerator denominator) : ℚ) < 1 := by
    linarith [(abs_le.mp hnearest).1]
  have hnone : units (nearestRank numerator denominator) = units 0 :=
    Nat.lt_one_iff.mp (by exact_mod_cast hunits)
  exact units_strictMono.injective hnone

theorem nearestRank_eq_of_units {rank : Nat} (hpos : 0 < denominator)
    (hvalue : (numerator / denominator : ℚ) = units rank) : nearestRank numerator denominator = rank := by
  have hnearest := abs_sub_units_nearestRank_le numerator hpos rank
  rw [hvalue, sub_self, abs_zero] at hnearest
  have hsame := sub_eq_zero.mp (abs_eq_zero.mp (le_antisymm hnearest (abs_nonneg _)))
  exact (units_strictMono.injective (by exact_mod_cast hsame)).symm

/-- Only the quotient counts. -/
theorem nearestRank_congr {left right : Nat} (hpos : 0 < denominator) (hright : 0 < right)
    (hvalue : (numerator / denominator : ℚ) = left / right) :
    nearestRank numerator denominator = nearestRank left right := by
  have hquotient : numerator / denominator = left / right := by
    rw [← Nat.floor_div_eq_div (K := ℚ), hvalue, Nat.floor_div_eq_div]
  have hspacing : spacing numerator denominator = spacing left right := by
    rw [spacing, spacing, hquotient]
  have hround := roundsTo_roundDiv left (shiftLeft_pos hright (spacing left right))
  rw [div_shiftLeft, ← hvalue, ← div_shiftLeft] at hround
  rw [nearestRank, nearestRank, hspacing, roundDiv_eq_of_roundsTo (shiftLeft_pos hpos _) hround]

theorem nearestRank_mono {left right : Nat} (hpos : 0 < denominator) (hright : 0 < right)
    (hle : (numerator / denominator : ℚ) ≤ left / right) :
    nearestRank numerator denominator ≤ nearestRank left right := by
  by_contra hlt
  have hunits : (units (nearestRank left right) : ℚ) < units (nearestRank numerator denominator) := by
    exact_mod_cast units_strictMono (not_le.mp hlt)
  have hsame := eq_of_abs_sub_le_of_lt hle hunits (abs_sub_units_nearestRank_le numerator hpos _)
    (abs_sub_units_nearestRank_le left hright _)
  exact hlt (nearestRank_congr hpos hright hsame).le

end Binary64

end FourFunction
