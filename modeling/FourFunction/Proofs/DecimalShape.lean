import FourFunction.Proofs.CompactDisplay
import FourFunction.Proofs.LexemeClasses
import FourFunction.Proofs.ShortestDigits
import FourFunction.Proofs.SignificantDigits

/-!
# The shape of the decimal display

Behind its sign the decimal display is digits with a point, or one digit, a point, digits and an exponent,
as the number lies between the limits or not. The limits compare numbers and the exponent belongs to the
shortest digits, which agree because the digits read back. The digits shown, without zeros at the ends, are
as few as any numeral of the number has.
-/

namespace FourFunction

open Text

/-! ### Two shapes -/

/-- Digits before a point: at least one, and no zero in front of another. -/
structure IsWhole (digits : Text) : Prop where
  are_digits : digits.AreDigits
  ne_nil : digits ≠ []
  zero_alone : digits.head? = some '0' → digits = ['0']

/-- Digits behind a point: at least one, and no zero at the end behind another. -/
structure IsFraction (digits : Text) : Prop where
  are_digits : digits.AreDigits
  ne_nil : digits ≠ []
  zero_alone : digits.getLast? = some '0' → digits = ['0']

/-- Digits with a point between them. -/
def IsPositional (text : Text) : Prop :=
  ∃ whole fraction, text = whole ++ '.' :: fraction ∧ IsWhole whole ∧ IsFraction fraction

/-- One digit, a point, digits, and an exponent of seven at least or minus four at most. -/
def IsScientific (text : Text) : Prop :=
  ∃ (lead : Char) (fraction : Text) (negative : Bool) (exponent : Text),
    text = [lead] ++ '.' :: (fraction ++ 'E' :: Binary64.signed negative exponent) ∧
    lead.isDigit = true ∧ lead ≠ '0' ∧ IsFraction fraction ∧
    exponent.AreDigits ∧ exponent ≠ [] ∧ exponent.head? ≠ some '0' ∧
    (if negative then 4 else 7) ≤ Nat.ofDigitChars 10 exponent 0

/-! ### Characters of the shapes -/

/-- One point, and no small letter that could mark an exponent. -/
def HasOnePoint (text : Text) : Prop :=
  text.count '.' = 1 ∧ 'e' ∉ text

namespace Text

def IsUnmarked (text : Text) : Prop :=
  ∀ c ∈ text, c ≠ '.' ∧ c ≠ 'e'

theorem AreDigits.isUnmarked {digits : Text} (hdigits : digits.AreDigits) : digits.IsUnmarked := by
  intro c hc
  have hdigit := hdigits c hc
  constructor <;> rintro rfl <;> cases hdigit

theorem IsUnmarked.signed {text : Text} (htext : text.IsUnmarked) (negative : Bool) :
    (Binary64.signed negative text).IsUnmarked := by
  cases negative
  · exact htext
  · exact List.forall_mem_cons.mpr ⟨by decide, htext⟩

theorem IsUnmarked.hasOnePoint {front rest : Text} (hfront : front.IsUnmarked) (hrest : rest.IsUnmarked) :
    HasOnePoint (front ++ '.' :: rest) := by
  have hfrontPoint : '.' ∉ front := fun hc => (hfront '.' hc).1 rfl
  have hrestPoint : '.' ∉ rest := fun hc => (hrest '.' hc).1 rfl
  constructor
  · rw [List.count_append, List.count_cons_self, List.count_eq_zero.mpr hfrontPoint,
      List.count_eq_zero.mpr hrestPoint]
  · have hfrontMark : 'e' ∉ front := fun hc => (hfront 'e' hc).2 rfl
    have hrestMark : 'e' ∉ rest := fun hc => (hrest 'e' hc).2 rfl
    simp [hfrontMark, hrestMark]

end Text

theorem IsPositional.hasOnePoint_signed {text : Text} (htext : IsPositional text) (negative : Bool) :
    HasOnePoint (Binary64.signed negative text) := by
  obtain ⟨whole, fraction, rfl, hwhole, hfraction⟩ := htext
  rw [Binary64.signed_eq_append, ← List.append_assoc, ← Binary64.signed_eq_append]
  exact (hwhole.are_digits.isUnmarked.signed negative).hasOnePoint hfraction.are_digits.isUnmarked

theorem IsScientific.hasOnePoint_signed {text : Text} (htext : IsScientific text) (negative : Bool) :
    HasOnePoint (Binary64.signed negative text) := by
  obtain ⟨lead, fraction, minus, exponent, rfl, hlead, _, hfraction, hexponent, _⟩ := htext
  have hmarked : IsUnmarked ('E' :: Binary64.signed minus exponent) :=
    List.forall_mem_cons.mpr ⟨by decide, hexponent.isUnmarked.signed minus⟩
  have hrest : IsUnmarked (fraction ++ 'E' :: Binary64.signed minus exponent) :=
    List.forall_mem_append.mpr ⟨hfraction.are_digits.isUnmarked, hmarked⟩
  rw [Binary64.signed_eq_append, ← List.append_assoc, ← Binary64.signed_eq_append]
  exact ((areDigits_singleton hlead).isUnmarked.signed negative).hasOnePoint hrest

/-! ### Layouts -/

namespace Decimal

theorem isWhole_wholeText (n : Nat) : IsWhole (wholeText n) where
  are_digits := areDigits_wholeText n
  ne_nil := wholeText_ne_nil n
  zero_alone := by
    intro hzero
    by_cases hn : n = 0
    · rw [hn]
      rfl
    · exact absurd hzero (head?_wholeText hn)

theorem isFraction_orZero {digits : Text} (hdigits : digits.AreDigits) (hlast : digits.getLast? ≠ some '0') :
    IsFraction (orZero digits) := by
  refine ⟨areDigits_orZero hdigits, ?_, ?_⟩
  all_goals
    rw [orZero]
    split
  · simp
  · assumption
  · exact fun _ => rfl
  · exact fun hzero => absurd hzero hlast

theorem isPositional_pointed (d : Decimal) : IsPositional d.pointed :=
  ⟨_, _, rfl, isWhole_wholeText _, isFraction_orZero (areDigits_fractionPart _ _) (getLast?_dropTrailingZeros _)⟩

/-- The exponent of the leading digit. -/
def leading (d : Decimal) : Int :=
  d.exponent + (digitCount d.coefficient - 1)

theorem isScientific_scientific {d : Decimal} (hne : d.coefficient % 10 ≠ 0)
    (hleading : d.leading ≤ -4 ∨ 7 ≤ d.leading) : IsScientific d.scientific := by
  have hdigits := areDigits_wholeText d.coefficient
  have hlast : (wholeText d.coefficient).getLast? ≠ some '0' := by
    rw [getLast?_wholeText, ne_eq, Option.some.injEq, digitChar_eq_zero_iff (Nat.mod_lt _ (by decide))]
    exact hne
  have hhead : (wholeText d.coefficient).head? ≠ some '0' := by
    apply head?_wholeText
    rintro hzero
    exact hne (by rw [hzero])
  have hexponent : d.leading.natAbs ≠ 0 := by omega
  have hscientific : d.scientific = (wholeText d.coefficient).take 1 ++
      '.' :: (orZero ((wholeText d.coefficient).drop 1) ++ 'E' :: integerText d.leading) := by
    rw [scientific, leading, digitCount, List.append_assoc, List.cons_append]
  have hinteger : integerText d.leading = Binary64.signed (d.leading < 0) (wholeText d.leading.natAbs) := by
    rw [integerText, Binary64.signed]
    simp
  rw [hscientific, hinteger]
  cases hsplit : wholeText d.coefficient with
  | nil => exact absurd hsplit (wholeText_ne_nil _)
  | cons lead rest =>
    rw [hsplit] at hdigits hlast hhead
    obtain ⟨hlead, hrest⟩ := List.forall_mem_cons.mp hdigits
    refine ⟨lead, orZero rest, _, _, rfl, hlead, fun hzero => hhead (congrArg some hzero),
      isFraction_orZero hrest ?_, areDigits_wholeText _, wholeText_ne_nil _, head?_wholeText hexponent, ?_⟩
    · intro hzero
      apply hlast
      rw [List.getLast?_cons, hzero]
      rfl
    · rw [ofDigitChars_wholeText]
      rcases hleading with hlow | hhigh
      · rw [if_pos (by simp; omega)]
        omega
      · rw [if_neg (by simp; omega)]
        omega

theorem value_positionalStart : Binary64.positionalStart.value = 10 ^ (-3 : Int) := by
  rw [Binary64.positionalStart, value, Nat.cast_one, one_mul]

theorem value_positionalEnd : Binary64.positionalEnd.value = 10 ^ (7 : Int) := by
  rw [Binary64.positionalEnd, value, Nat.cast_one, one_mul]

/-- The shortest digits lie on the same side of the limits as the number. At the upper limit itself they
are those of the limit. -/
theorem leading_shortest {rank : Nat} (hrank : rank < infinityRank) (hne : rank ≠ 0)
    (houtside : Binary64.isPositional rank = false) :
    (shortest rank).leading ≤ -4 ∨ 7 ≤ (shortest rank).leading := by
  have hread := rank_shortest hrank
  have hcoefficient := coefficient_ne_zero (hread.trans_ne hne)
  have hlow : (10 : ℚ) ^ (shortest rank).leading ≤ (shortest rank).value := ten_zpow_le_value hcoefficient
  have hhigh := (shortest rank).value_lt_ten_zpow
  rw [Binary64.isPositional, Bool.and_eq_false_iff, decide_eq_false_iff_not, decide_eq_false_iff_not, not_le,
    not_lt] at houtside
  rcases houtside with hless | hmore
  · left
    have hvalue : (shortest rank).value < Binary64.positionalStart.value :=
      value_lt_of_rank_lt (hread.trans_lt hless)
    rw [value_positionalStart] at hvalue
    have hleading := (zpow_lt_zpow_iff_right₀ (by norm_num)).mp (hlow.trans_lt hvalue)
    omega
  · right
    have hvalue : Binary64.positionalEnd.value ≤ (shortest rank).value := by
      rcases Nat.eq_or_lt_of_le hmore with hlimit | hbeyond
      · have hshortest : shortest Binary64.positionalEnd.rank = Binary64.positionalEnd := by decide +kernel
        rw [← hlimit, hshortest]
      · exact (value_lt_of_rank_lt (hbeyond.trans_eq hread.symm)).le
    rw [value_positionalEnd] at hvalue
    have hleading := (zpow_lt_zpow_iff_right₀ (by norm_num)).mp (hvalue.trans_lt hhigh)
    rw [leading]
    omega

end Decimal

/-! ### The decimal display -/

namespace Binary64

variable {rank : Nat}

theorem isPositional_decimalText (hwithin : rank = 0 ∨ isPositional rank = true) :
    IsPositional (decimalText rank) := by
  rw [decimalText]
  split
  · exact Decimal.isPositional_pointed _
  · rename_i hne
    rw [if_pos (hwithin.resolve_left hne)]
    exact Decimal.isPositional_pointed _

theorem isScientific_decimalText (hrank : rank < infinityRank) (hne : rank ≠ 0)
    (houtside : isPositional rank = false) : IsScientific (decimalText rank) := by
  rw [decimalText, if_neg hne, if_neg (by simp [houtside])]
  exact Decimal.isScientific_scientific (Decimal.coefficient_shortest_mod hrank hne)
    (Decimal.leading_shortest hrank hne houtside)

theorem hasOnePoint_signed_decimalText (negative : Bool) (hrank : rank < infinityRank) :
    HasOnePoint (signed negative (decimalText rank)) := by
  by_cases hwithin : rank = 0 ∨ isPositional rank = true
  · exact (isPositional_decimalText hwithin).hasOnePoint_signed negative
  · rw [not_or, Bool.not_eq_true] at hwithin
    exact (isScientific_decimalText hrank hwithin.1 hwithin.2).hasOnePoint_signed negative

theorem head?_signed (negative : Bool) {text : Text} (hstart : text.StartsWithDigit) :
    (signed negative text).head? = some '-' ↔ negative = true := by
  cases negative with
  | true => exact iff_of_true rfl rfl
  | false =>
    refine iff_of_false ?_ Bool.false_ne_true
    intro hminus
    obtain ⟨c, hc, hdigit⟩ := hstart
    obtain rfl := Option.some.inj (hc.symm.trans hminus)
    cases hdigit

/-! ### The limits -/

/-- The number nearest to a thousandth. -/
def thousandth : Binary64 :=
  ofRank false positionalStart.rank

theorem value?_thousandth : thousandth.value? = some (magnitude positionalStart.rank) := by
  have hrank : positionalStart.rank < infinityRank := by decide +kernel
  rw [thousandth, value?_ofRank false hrank, withSign_false]

theorem isNearest_thousandth : thousandth.IsNearest (1 / 1000) := by
  have hbound : positionalStart.value < overflowBound :=
    positionalStart.rank_lt_infinityRank_iff.mp (by decide +kernel)
  have hnearest := Decimal.isNearest_ofRank_rank false hbound
  have hvalue : withSign false positionalStart.value = 1 / 1000 := by
    rw [Decimal.value_positionalStart, withSign_false]
    norm_num
  rw [hvalue] at hnearest
  exact hnearest

theorem magnitude_positionalEnd : magnitude positionalEnd.rank = 10 ^ 7 := by
  have hunits : units positionalEnd.rank = 10 ^ 7 * unitsPerOne := by decide +kernel
  rw [magnitude, hunits, Nat.cast_mul, mul_div_cancel_right₀ _ Decimal.cast_unitsPerOne_pos.ne',
    Nat.cast_pow, Nat.cast_ofNat]

theorem isPositional_iff : isPositional rank = true ↔
    magnitude positionalStart.rank ≤ magnitude rank ∧ magnitude rank < 10 ^ 7 := by
  rw [isPositional, Bool.and_eq_true, decide_eq_true_eq, decide_eq_true_eq, ← magnitude_positionalEnd,
    magnitude_strictMono.le_iff_le, magnitude_strictMono.lt_iff_lt]

/-! ### As few digits as can be -/

theorem rank_of_nearest_eq {literal : Literal} {negative : Bool} {hrank : rank < infinityRank}
    (hnearest : literal.nearest = finite negative rank hrank) : literal.magnitude.rank = rank := by
  rw [Literal.nearest, ofRank] at hnearest
  split at hnearest
  · cases hnearest
    rfl
  · cases hnearest

theorem length_significantDigits_le {shown other : Literal} (hrank : rank < infinityRank)
    (hshown : shown.IsSpelled) (hvalue : shown.magnitude.value = (shownDecimal rank).value)
    (hother : other.IsSpelled) (hread : other.magnitude.rank = rank) :
    shown.significantDigits.length ≤ other.significantDigits.length := by
  by_cases hzero : rank = 0
  · have hnone : (shownDecimal rank).value = 0 := by
      rw [shownDecimal, if_pos hzero, Decimal.value, Nat.cast_zero, zero_mul]
    rw [hnone] at hvalue
    rw [(Literal.significantDigits_eq_nil_iff hshown).mpr hvalue]
    exact Nat.zero_le _
  · obtain ⟨place, hplace⟩ := other.exists_value_significantDigits
    let d : Decimal := ⟨Nat.ofDigitChars 10 other.significantDigits 0, place⟩
    have hsame : d.value = other.magnitude.value := hplace.symm
    have hd : d.rank = rank := (Decimal.rank_congr hsame).trans hread
    have hne : other.significantDigits ≠ [] := by
      intro hnil
      exact Decimal.coefficient_ne_zero (hd.trans_ne hzero) (by simp [d, hnil])
    have hcount := Decimal.digitCount_shortest_le hrank hzero hd
    rw [shownDecimal, if_neg hzero] at hvalue
    rw [Literal.significantDigits_eq hshown (Decimal.coefficient_shortest_mod hrank hzero) hvalue,
      ← Literal.wholeText_significantDigits hother hne]
    exact hcount

end Binary64

open Binary64

/-- The decimal display of a finite number. It starts with a minus sign just if the number is negative,
minus zero included. Behind the sign it is positional for zero and from the number nearest to a thousandth
on below ten millions, and scientific for all others. It is a numeral of the number, and no numeral of it
has fewer significant digits. -/
theorem decimal_display_shape (number : Binary64) (value : ℚ) (hvalue : number.value? = some value) :
    let shown := number.display .decimal
    (shown.head? = some '-' ↔ number.isNegative = true) ∧
    (∃ (least : Binary64) (start : ℚ) (rest : Text), least.IsNearest (1 / 1000) ∧ least.value? = some start ∧
      shown = signed number.isNegative rest ∧
      (value = 0 ∨ start ≤ |value| ∧ |value| < 10 ^ 7 → IsPositional rest) ∧
      (¬(value = 0 ∨ start ≤ |value| ∧ |value| < 10 ^ 7) → IsScientific rest)) ∧
    HasOnePoint shown ∧
    ∃ literal : Literal, literal.Spells shown ∧ literal.nearest = number ∧
      ∀ (text : Text) (other : Literal), other.Spells text → other.nearest = number →
        literal.significantDigits.length ≤ other.significantDigits.length := by
  intro shown
  cases number with
  | nan => cases hvalue
  | infinite negative => cases hvalue
  | finite negative rank hrank =>
    obtain rfl := Option.some.inj hvalue
    obtain ⟨literal, hread, hsign, hliteral⟩ := denotes_decimalText negative rank
    have hspells : literal.Spells shown := Literal.ofText?_eq_some_iff.mp hread
    rw [abs_withSign negative (magnitude_nonneg rank), withSign_eq_zero_iff negative]
    refine ⟨head?_signed negative (startsWithDigit_decimalText rank),
      ⟨thousandth, _, decimalText rank, isNearest_thousandth, value?_thousandth, rfl, ?_, ?_⟩,
      hasOnePoint_signed_decimalText negative hrank, literal, hspells, ?_, ?_⟩
    · rw [← isPositional_iff]
      exact isPositional_decimalText
    · intro houtside
      rw [← isPositional_iff, not_or, Bool.not_eq_true] at houtside
      exact isScientific_decimalText hrank houtside.1 houtside.2
    · exact Literal.nearest_eq_finite hsign hliteral (rank_shownDecimal hrank) hrank
    · intro text other hother hnearest
      exact length_significantDigits_le hrank hspells.is_spelled hliteral hother.is_spelled
        (rank_of_nearest_eq hnearest)

/-- The limit itself is scientific. -/
theorem decimal_display_shape_limit :
    let limit := ofRank true positionalEnd.rank
    let shown := "-1.0E7".toList
    (limit.value? = some (-10 ^ 7) ∧ limit.display .decimal = shown) ∧
    (shown.head? = some '-' ↔ limit.isNegative = true) ∧
    IsScientific "1.0E7".toList ∧
    HasOnePoint shown ∧
    ∃ literal : Literal, literal.Spells shown ∧ literal.nearest = limit ∧
      ∀ (text : Text) (other : Literal), other.Spells text → other.nearest = limit →
        literal.significantDigits.length ≤ other.significantDigits.length := by
  intro limit shown
  have hlimit : limit.value? = some (-10 ^ 7) := by
    have hrank : positionalEnd.rank < infinityRank := by decide +kernel
    rw [value?_ofRank true hrank, withSign_true, magnitude_positionalEnd]
  have hshown : limit.display .decimal = shown := by decide +kernel
  have hnegative : limit.isNegative = true := by decide +kernel
  have hshape := decimal_display_shape limit _ hlimit
  rw [hshown] at hshape
  obtain ⟨hsign, ⟨_, _, rest, _, _, hrest, _, hscientific⟩, hpoint, hdigits⟩ := hshape
  rw [hnegative] at hrest
  obtain rfl : "1.0E7".toList = rest := List.tail_eq_of_cons_eq hrest
  refine ⟨⟨hlimit, hshown⟩, hsign, hscientific ?_, hpoint, hdigits⟩
  norm_num

end FourFunction
