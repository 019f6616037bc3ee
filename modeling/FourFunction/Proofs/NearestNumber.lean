import FourFunction.Binary64.Bits
import FourFunction.Proofs.Overflow

/-!
# The nearest number with a sign

The value of a finite number as a rational, and what it means that a number is the nearest to a rational:
none is nearer, and if another value is as near the number is even. With a sign this singles out one
number, zero included, and a quotient that is rounded and given a sign is that number.
-/

namespace FourFunction

namespace Binary64

/-! ### Values -/

/-- The value of a rank. -/
def magnitude (rank : Nat) : ℚ :=
  units rank / unitsPerOne

def withSign (negative : Bool) (magnitude : ℚ) : ℚ :=
  if negative then -magnitude else magnitude

/-- The value of a finite number. -/
def value? : Binary64 → Option ℚ
  | finite negative rank _ => some (withSign negative (magnitude rank))
  | _ => none

def isNegative : Binary64 → Bool
  | nan => false
  | infinite negative => negative
  | finite negative _ _ => negative

/-- The number is finite, none is nearer to `q`, and if another value is as near the last bit of its
pattern, which is that of its significand, is zero. -/
def IsNearest (number : Binary64) (q : ℚ) : Prop :=
  ∃ value, number.value? = some value ∧ ∀ (other : Binary64) otherValue, other.value? = some otherValue →
    |q - value| ≤ |q - otherValue| ∧
      (|q - value| = |q - otherValue| → otherValue = value ∨ Even number.toPattern)

theorem magnitude_zero : magnitude 0 = 0 := by
  rw [magnitude, units_zero, Nat.cast_zero, zero_div]

theorem magnitude_nonneg (rank : Nat) : 0 ≤ magnitude rank :=
  div_nonneg (Nat.cast_nonneg _) Decimal.cast_unitsPerOne_pos.le

theorem magnitude_strictMono : StrictMono magnitude := by
  intro left right hlt
  exact div_lt_div_of_pos_right (Nat.cast_lt.mpr (units_strictMono hlt)) Decimal.cast_unitsPerOne_pos

theorem value?_ofRank (negative : Bool) {rank : Nat} (hrank : rank < infinityRank) :
    (ofRank negative rank).value? = some (withSign negative (magnitude rank)) := by
  rw [ofRank, dif_pos hrank, value?]

theorem even_toPattern_finite {negative : Bool} {rank : Nat} {hrank : rank < infinityRank} :
    Even (finite negative rank hrank).toPattern ↔ Even rank := by
  have hsign : Even (signPattern negative) := by
    cases negative <;> decide
  rw [toPattern, Nat.even_add]
  exact iff_true_left hsign

/-! ### Signs -/

theorem withSign_false (q : ℚ) : withSign false q = q :=
  rfl

theorem withSign_true (q : ℚ) : withSign true q = -q :=
  rfl

section

variable {a b : ℚ}

theorem withSign_zero (negative : Bool) : withSign negative 0 = 0 := by
  cases negative
  · rfl
  · exact neg_zero

theorem abs_withSign (negative : Bool) (ha : 0 ≤ a) : |withSign negative a| = a := by
  cases negative
  · exact abs_of_nonneg ha
  · exact (abs_neg a).trans (abs_of_nonneg ha)

theorem withSign_injective (negative : Bool) : Function.Injective (withSign negative) := by
  intro a b hsame
  cases negative
  · exact hsame
  · exact neg_injective hsame

theorem abs_sub_withSign (negative : Bool) (a b : ℚ) :
    |withSign negative a - withSign negative b| = |a - b| := by
  cases negative
  · rfl
  · show |-a - -b| = |a - b|
    rw [neg_sub_neg, abs_sub_comm]

/-- With opposite signs two magnitudes lie apart by their sum. -/
theorem abs_sub_withSign_not (negative : Bool) (ha : 0 ≤ a) (hb : 0 ≤ b) :
    |withSign negative a - withSign (!negative) b| = a + b := by
  cases negative
  · show |a - -b| = a + b
    rw [sub_neg_eq_add, abs_of_nonneg (add_nonneg ha hb)]
  · show |-a - b| = a + b
    rw [← neg_add', abs_neg, abs_of_nonneg (add_nonneg ha hb)]

theorem abs_sub_le_add (ha : 0 ≤ a) (hb : 0 ≤ b) : |a - b| ≤ a + b := by
  rw [abs_le]
  constructor <;> linarith

theorem abs_sub_le_abs_sub_withSign (left right : Bool) (ha : 0 ≤ a) (hb : 0 ≤ b) :
    |a - b| ≤ |withSign left a - withSign right b| := by
  by_cases hsame : right = left
  · rw [hsame, abs_sub_withSign]
  · rw [Bool.eq_not_of_ne hsame, abs_sub_withSign_not left ha hb]
    exact abs_sub_le_add ha hb

end

/-! ### The nearest rank with a sign -/

/-- A rank that is nearest to a magnitude gives the nearest number to it, with any sign. -/
theorem isNearest_finite (negative : Bool) {rank : Nat} (hrank : rank < infinityRank) {q : ℚ} (hq : 0 ≤ q)
    (hnearest : ∀ other, |q - magnitude rank| ≤ |q - magnitude other|)
    (heven : ∀ other, other ≠ rank → |q - magnitude rank| = |q - magnitude other| → Even rank) :
    (finite negative rank hrank).IsNearest (withSign negative q) := by
  refine ⟨_, rfl, ?_⟩
  intro other otherValue hother
  cases other with
  | nan => cases hother
  | infinite otherNegative => cases hother
  | finite otherNegative otherRank _ =>
    obtain rfl := Option.some.inj hother
    have hfarther := abs_sub_le_abs_sub_withSign negative otherNegative hq (magnitude_nonneg otherRank)
    rw [abs_sub_withSign, even_toPattern_finite]
    refine ⟨(hnearest otherRank).trans hfarther, fun htie => ?_⟩
    have hranks : |q - magnitude rank| = |q - magnitude otherRank| :=
      le_antisymm (hnearest otherRank) (hfarther.trans htie.ge)
    by_cases hsame : otherRank = rank
    · left
      subst hsame
      by_cases hsign : otherNegative = negative
      · rw [hsign]
      · -- A magnitude is as near with either sign only if it is zero, or if zero is to be rounded.
        rw [Bool.eq_not_of_ne hsign, abs_sub_withSign_not negative hq (magnitude_nonneg otherRank)] at htie
        have hzero := hnearest 0
        rw [htie, magnitude_zero, sub_zero, abs_of_nonneg hq] at hzero
        have hnone : magnitude otherRank = 0 := by linarith [magnitude_nonneg otherRank]
        rw [hnone, withSign_zero, withSign_zero]
    · exact .inr (heven otherRank hsame hranks)

/-! ### Only one number is the nearest -/

/-- What lies between two that are as near is nearer. -/
theorem abs_sub_lt_of_between {q a b c : ℚ} (htie : |q - a| = |q - b|) (hac : a < c) (hcb : c < b) :
    |q - c| < |q - a| := by
  have hmiddle : q - a = b - q := by
    rcases abs_eq_abs.mp htie with hsame | hopposite
    · linarith
    · linarith
  have hpos : 0 < q - a := by linarith
  rw [abs_of_pos hpos, abs_lt]
  constructor <;> linarith

/-- Between two even ranks is another. -/
theorem le_of_isNearest_of_even {q : ℚ} {negative : Bool} {left right : Nat} {hleft : left < infinityRank}
    (hright : right < infinityRank) (hnearest : (finite negative left hleft).IsNearest q)
    (htie : |q - withSign negative (magnitude left)| = |q - withSign negative (magnitude right)|)
    (hleftEven : Even left) (hrightEven : Even right) : right ≤ left := by
  by_contra hlt
  have hbetween : left + 1 < right := by
    obtain ⟨i, rfl⟩ := hleftEven
    obtain ⟨j, rfl⟩ := hrightEven
    omega
  have hbelow := magnitude_strictMono (Nat.lt_succ_self left)
  have habove := magnitude_strictMono hbetween
  obtain ⟨value, hvalue, hnear⟩ := hnearest
  obtain rfl : withSign negative (magnitude left) = value := Option.some.inj hvalue
  have hmiddle := (hnear (finite negative (left + 1) (hbetween.trans hright)) _ rfl).1
  apply absurd hmiddle
  rw [not_le]
  cases negative
  · exact abs_sub_lt_of_between htie hbelow habove
  · rw [htie]
    exact abs_sub_lt_of_between htie.symm (neg_lt_neg habove) (neg_lt_neg hbelow)

theorem IsNearest.unique {q : ℚ} {left right : Binary64} (hleft : left.IsNearest q)
    (hright : right.IsNearest q) (hsign : left.isNegative = right.isNegative) : left = right := by
  have ⟨leftValue, hleftValue, hleftNear⟩ := hleft
  have ⟨rightValue, hrightValue, hrightNear⟩ := hright
  obtain ⟨hle, hleftTie⟩ := hleftNear right rightValue hrightValue
  obtain ⟨hge, hrightTie⟩ := hrightNear left leftValue hleftValue
  have htie := le_antisymm hle hge
  cases left with
  | nan => cases hleftValue
  | infinite negative => cases hleftValue
  | finite negative leftRank hleftRank =>
    cases right with
    | nan => cases hrightValue
    | infinite negative => cases hrightValue
    | finite rightNegative rightRank hrightRank =>
      obtain rfl : negative = rightNegative := hsign
      obtain rfl := Option.some.inj hleftValue
      obtain rfl := Option.some.inj hrightValue
      have hranks : leftRank = rightRank := by
        rcases hleftTie htie with hsame | hleftEven
        · exact (magnitude_strictMono.injective (withSign_injective negative hsame)).symm
        · rcases hrightTie htie.symm with hsame | hrightEven
          · exact magnitude_strictMono.injective (withSign_injective negative hsame)
          · rw [even_toPattern_finite] at hleftEven hrightEven
            exact le_antisymm (le_of_isNearest_of_even hleftRank hright htie.symm hrightEven hleftEven)
              (le_of_isNearest_of_even hrightRank hleft htie hleftEven hrightEven)
      subst hranks
      rfl

/-! ### Rounded quotients -/

theorem abs_sub_magnitude (q : ℚ) (rank : Nat) :
    |q - magnitude rank| * unitsPerOne = |q * unitsPerOne - units rank| := by
  have hpos := Decimal.cast_unitsPerOne_pos
  rw [← abs_of_pos hpos, ← abs_mul, abs_of_pos hpos, sub_mul, magnitude, div_mul_cancel₀ _ hpos.ne']

/-- A quotient of units is rounded to the nearest number to what it is in ones. -/
theorem isNearest_rounded (negative : Bool) {numerator denominator : Nat} (hpos : 0 < denominator)
    (hrank : nearestRank numerator denominator < infinityRank) {q : ℚ}
    (hq : q * unitsPerOne = numerator / denominator) :
    (rounded negative numerator denominator).IsNearest (withSign negative q) := by
  have hone := Decimal.cast_unitsPerOne_pos
  have hnonneg : 0 ≤ q := by
    refine nonneg_of_mul_nonneg_left ?_ hone
    rw [hq]
    exact div_nonneg (Nat.cast_nonneg _) (Nat.cast_nonneg _)
  rw [rounded, ofRank, dif_pos hrank]
  apply isNearest_finite negative hrank hnonneg
  · intro other
    refine le_of_mul_le_mul_right ?_ hone
    rw [abs_sub_magnitude, abs_sub_magnitude, hq]
    exact abs_sub_units_nearestRank_le _ hpos other
  · intro other hne htie
    have hunits := congrArg (· * (unitsPerOne : ℚ)) htie
    simp only [abs_sub_magnitude, hq] at hunits
    exact even_nearestRank_of_tie hpos hne hunits

theorem isNearest_nearestWhole {n : Nat} (hbound : n < overflowBound) : (nearestWhole n).IsNearest n := by
  have hfinite := (isFinite_nearestWhole n).mpr hbound
  rw [nearestWhole, rounded, isFinite_ofRank] at hfinite
  have hunits : (n : ℚ) * unitsPerOne = (n * unitsPerOne : Nat) / (1 : Nat) := by
    rw [Nat.cast_mul, Nat.cast_one, div_one]
  exact isNearest_rounded false Nat.one_pos hfinite hunits

end Binary64

/-! ### Decimals with a sign -/

namespace Decimal

open Binary64

theorem value_nonneg (d : Decimal) : 0 ≤ d.value :=
  mul_nonneg (Nat.cast_nonneg _) (zpow_nonneg (by norm_num) _)

theorem nearestRank_lt_infinityRank_iff_value (d : Decimal) :
    nearestRank d.numerator d.denominator < infinityRank ↔ d.value < overflowBound := by
  rw [nearestRank_lt_infinityRank_iff _ d.denominator_pos, numerator_div_denominator, Nat.cast_mul,
    mul_lt_mul_iff_left₀ cast_unitsPerOne_pos]

theorem rank_lt_infinityRank_iff (d : Decimal) : d.rank < infinityRank ↔ d.value < overflowBound := by
  rw [rank_eq, min_lt_iff, nearestRank_lt_infinityRank_iff_value]
  simp

theorem isNearest_ofRank_rank (negative : Bool) {d : Decimal} (hbound : d.value < overflowBound) :
    (ofRank negative d.rank).IsNearest (withSign negative d.value) := by
  rw [ofRank_rank]
  exact isNearest_rounded negative d.denominator_pos (d.nearestRank_lt_infinityRank_iff_value.mpr hbound)
    d.numerator_div_denominator.symm

end Decimal

end FourFunction
