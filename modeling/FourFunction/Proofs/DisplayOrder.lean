import FourFunction.Proofs.CompactDisplay
import FourFunction.Proofs.LexemeClasses

/-!
# The order of compact displays

What the compact display shows of a greater number is no less. Two numbers that are shown rounded keep
their order because rounding does. Two that are shown by their shortest digits keep it because the digits
read back. Where one is shown by its digits and the other rounded, what is shown of the first is less than
one in the last place, or it would be read as a number that is not rounded to zero.
-/

namespace FourFunction

/-- The rational that a numeral denotes. -/
def Shows (text : Text) (q : ℚ) : Prop :=
  ∃ literal : Literal, literal.Spells text ∧ literal.value = q

theorem Denotes.shows {text : Text} {negative : Bool} {q : ℚ} (hdenotes : Denotes text negative q) :
    Shows text (Binary64.withSign negative q) := by
  obtain ⟨literal, hread, hsign, rfl⟩ := hdenotes
  refine ⟨literal, Literal.ofText?_eq_some_iff.mp hread, ?_⟩
  rw [Literal.value_eq]
  simp only [hsign, Bool.decide_eq_true]

namespace Binary64

/-! ### What is shown of a rank -/

/-- The magnitude that the compact display shows. -/
def compactShown (rank : Nat) : ℚ :=
  if compactScaled rank = 0 then (shownDecimal rank).value
  else compactScaled rank / powerOfTen compactPlaces

theorem compactShown_zero : compactShown 0 = 0 := by
  rw [compactShown, if_pos compactScaled_zero]
  exact zero_mul _

theorem compactShown_nonneg (rank : Nat) : 0 ≤ compactShown rank := by
  rw [compactShown]
  split
  · exact Decimal.value_nonneg _
  · exact div_nonneg (Nat.cast_nonneg _) (Decimal.cast_powerOfTen_pos _).le

theorem denotes_compactText (negative : Bool) (rank : Nat) :
    Denotes (signed negative (compactText rank)) negative (compactShown rank) := by
  rw [compactText, compactShown]
  split
  · exact denotes_decimalText negative rank
  · exact Decimal.denotes_plain negative _ _

theorem shows_displayFinite_compact (negative : Bool) (rank : Nat) :
    Shows (displayFinite negative rank .compact) (withSign negative (compactShown rank)) := by
  by_cases hzero : rank = 0
  · rw [hzero, displayFinite_compact_zero, compactShown_zero, withSign_zero]
    exact (denotes_zero false).shows
  · rw [displayFinite_compact negative hzero]
    exact (denotes_compactText negative rank).shows

/-! ### The order of magnitudes -/

section

variable {left right : Nat}

theorem inLastPlace_mono (hle : left ≤ right) : inLastPlace left ≤ inLastPlace right := by
  rw [inLastPlace_eq, inLastPlace_eq]
  exact mul_le_mul_of_nonneg_right (magnitude_strictMono.monotone hle) (Decimal.cast_powerOfTen_pos _).le

theorem compactScaled_mono (hle : left ≤ right) : compactScaled left ≤ compactScaled right :=
  (roundsTo_compactScaled left).mono (roundsTo_compactScaled right) (inLastPlace_mono hle)

theorem value_shownDecimal_mono (hright : right < infinityRank) (hle : left ≤ right) :
    (shownDecimal left).value ≤ (shownDecimal right).value := by
  rcases Nat.eq_or_lt_of_le hle with rfl | hlt
  · exact le_refl _
  · apply le_of_lt
    apply Decimal.value_lt_of_rank_lt
    rw [rank_shownDecimal (hlt.trans hright), rank_shownDecimal hright]
    exact hlt

/-- One in the last place of the compact display. -/
def lastPlace : Decimal := ⟨1, -compactPlaces⟩

theorem value_lastPlace : lastPlace.value = 1 / powerOfTen compactPlaces := by
  rw [lastPlace, Decimal.value, zpow_neg, zpow_natCast, ← Decimal.cast_powerOfTen, Nat.cast_one, one_mul,
    one_div]

/-- What would be rounded to zero is less than one in the last place, and so are its shortest digits. -/
theorem value_shownDecimal_lt {rank : Nat} (hrank : rank < infinityRank) (hvanishing : compactScaled rank = 0) :
    (shownDecimal rank).value < 1 / powerOfTen compactPlaces := by
  have hone : compactScaled lastPlace.rank = 1 := by decide +kernel
  have hless : rank < lastPlace.rank := by
    by_contra hle
    have hscaled := compactScaled_mono (not_lt.mp hle)
    rw [hone, hvanishing] at hscaled
    exact Nat.not_succ_le_zero 0 hscaled
  rw [← value_lastPlace]
  apply Decimal.value_lt_of_rank_lt
  rwa [rank_shownDecimal hrank]

theorem compactShown_mono (hright : right < infinityRank) (hle : left ≤ right) :
    compactShown left ≤ compactShown right := by
  have hscaled := compactScaled_mono hle
  have hplaces := Decimal.cast_powerOfTen_pos compactPlaces
  by_cases hleftVanishing : compactScaled left = 0
  · by_cases hrightVanishing : compactScaled right = 0
    · rw [compactShown, compactShown, if_pos hleftVanishing, if_pos hrightVanishing]
      exact value_shownDecimal_mono hright hle
    · have hone : (1 : ℚ) ≤ compactScaled right := by
        exact_mod_cast Nat.one_le_iff_ne_zero.mpr hrightVanishing
      rw [compactShown, compactShown, if_pos hleftVanishing, if_neg hrightVanishing]
      calc (shownDecimal left).value ≤ 1 / powerOfTen compactPlaces :=
            (value_shownDecimal_lt (hle.trans_lt hright) hleftVanishing).le
        _ ≤ compactScaled right / powerOfTen compactPlaces := div_le_div_of_nonneg_right hone hplaces.le
  · have hrightVisible : compactScaled right ≠ 0 := by omega
    rw [compactShown, compactShown, if_neg hleftVanishing, if_neg hrightVisible]
    exact div_le_div_of_nonneg_right (by exact_mod_cast hscaled) hplaces.le

end

/-! ### The order of numbers -/

/-- Values in order have magnitudes in order behind a plus sign, and in the other order behind a minus
sign. Behind both signs, in this order, they are zero. -/
theorem withSign_compactShown_mono {negative other : Bool} {left right : Nat} (hleft : left < infinityRank)
    (hright : right < infinityRank)
    (hle : withSign negative (magnitude left) ≤ withSign other (magnitude right)) :
    withSign negative (compactShown left) ≤ withSign other (compactShown right) := by
  have hleftNonneg := magnitude_nonneg left
  have hrightNonneg := magnitude_nonneg right
  match negative, other with
  | false, false =>
    rw [withSign_false, withSign_false] at hle ⊢
    exact compactShown_mono hright (magnitude_strictMono.le_iff_le.mp hle)
  | true, true =>
    rw [withSign_true, withSign_true, neg_le_neg_iff] at hle ⊢
    exact compactShown_mono hleft (magnitude_strictMono.le_iff_le.mp hle)
  | true, false =>
    rw [withSign_true, withSign_false]
    exact (neg_nonpos_of_nonneg (compactShown_nonneg left)).trans (compactShown_nonneg right)
  | false, true =>
    have hleftZero : withSign false (magnitude left) = 0 := by
      rw [withSign_false, withSign_true] at *
      linarith
    have hrightZero : withSign true (magnitude right) = 0 := by
      rw [withSign_false, withSign_true] at *
      linarith
    rw [(withSign_eq_zero_iff false).mp hleftZero, (withSign_eq_zero_iff true).mp hrightZero,
      compactShown_zero, withSign_zero, withSign_zero]

end Binary64

open Binary64

/-- The compact display keeps the order of finite numbers: what it shows of the greater of two is no
less. -/
theorem compact_display_monotone (left right : Binary64) (a b : ℚ) (hleft : left.value? = some a)
    (hright : right.value? = some b) (hle : a ≤ b) :
    ∃ p q : ℚ, Shows (left.display .compact) p ∧ Shows (right.display .compact) q ∧ p ≤ q := by
  cases left with
  | nan => cases hleft
  | infinite negative => cases hleft
  | finite negative leftRank hleftRank =>
    cases right with
    | nan => cases hright
    | infinite negative => cases hright
    | finite other rightRank hrightRank =>
      obtain rfl := Option.some.inj hleft
      obtain rfl := Option.some.inj hright
      exact ⟨_, _, shows_displayFinite_compact negative leftRank, shows_displayFinite_compact other rightRank,
        withSign_compactShown_mono hleftRank hrightRank hle⟩

/-- Two neighbours, the less of which is rounded to one in the last place and the greater shown by its
digits. -/
theorem compact_display_monotone_seam :
    let rank := (⟨5, -11⟩ : Decimal).rank
    let left := ofRank true rank
    let right := ofRank true (rank - 1)
    (left.value? = some (withSign true (magnitude rank)) ∧
      right.value? = some (withSign true (magnitude (rank - 1))) ∧
      withSign true (magnitude rank) ≤ withSign true (magnitude (rank - 1))) ∧
    (left.display .compact = "-0.0000000001".toList ∧
      right.display .compact = "-4.9999999999999995E-11".toList) ∧
    ∃ p q : ℚ, Shows "-0.0000000001".toList p ∧ Shows "-4.9999999999999995E-11".toList q ∧ p ≤ q := by
  intro rank left right
  have hrank : rank < infinityRank := by decide +kernel
  have hleft : left.value? = some (withSign true (magnitude rank)) := value?_ofRank true hrank
  have hright : right.value? = some (withSign true (magnitude (rank - 1))) :=
    value?_ofRank true ((Nat.sub_le rank 1).trans_lt hrank)
  have hle : withSign true (magnitude rank) ≤ withSign true (magnitude (rank - 1)) := by
    rw [withSign_true, withSign_true, neg_le_neg_iff]
    exact magnitude_strictMono.monotone (Nat.sub_le rank 1)
  have hleftShown : left.display .compact = "-0.0000000001".toList := by decide +kernel
  have hrightShown : right.display .compact = "-4.9999999999999995E-11".toList := by decide +kernel
  have hmonotone := compact_display_monotone left right _ _ hleft hright hle
  rw [hleftShown, hrightShown] at hmonotone
  exact ⟨⟨hleft, hright, hle⟩, ⟨hleftShown, hrightShown⟩, hmonotone⟩

end FourFunction
