import FourFunction.Display
import FourFunction.Proofs.Lexemes
import FourFunction.Proofs.Numerals
import FourFunction.Proofs.Overflow

/-!
# Reading a display again

What a lexeme is that shows a finite number. The decimal display is read as the number it shows. The
compact display is read as a number with the same display: if it is another number, the shown one lies
no farther from it than from the first, and where both are half a place away it is even, so rounding
goes back to it.
-/

namespace FourFunction

theorem Literal.nearest_eq_finite {literal : Literal} {negative : Bool} {d : Decimal} {rank : Nat}
    (hsign : literal.sign = some .minus ↔ negative = true) (hvalue : literal.magnitude.value = d.value)
    (hread : d.rank = rank) (hrank : rank < infinityRank) :
    literal.nearest = .finite negative rank hrank := by
  rw [nearest, Decimal.rank_congr hvalue, hread, Binary64.ofRank, dif_pos hrank]
  simp [hsign]

namespace Token

theorem finiteValue?_of_denotes {text : Text} {negative : Bool} {d : Decimal}
    (hdenotes : Denotes text negative d.value) (hrank : d.rank < infinityRank) :
    finiteValue? text = some (.finite negative d.rank hrank) := by
  obtain ⟨literal, hread, hsign, hvalue⟩ := hdenotes
  rw [finiteValue?, hread, Option.map_some, Literal.nearest_eq_finite hsign hvalue rfl hrank]
  rfl

/-- Digits alone are the whole number that they are, rounded, unless that is too large. -/
theorem finiteValue?_of_areDigits {digits : Text} (hdigits : digits.AreDigits) (hne : digits ≠ []) :
    finiteValue? digits =
      (some (Binary64.nearestWhole (Nat.ofDigitChars 10 digits 0))).filter Binary64.isFinite := by
  let literal : Literal := ⟨none, digits, none, none⟩
  have hspelled : literal.IsSpelled := ⟨hdigits, by simp [literal], by simp [literal]⟩
  have hnumeral : literal.IsNumeral := ⟨.inl hne, by simp [literal]⟩
  have htext : literal.toText = digits := by
    simp [literal, Literal.toText, Sign.toText, Literal.fractionText, Literal.scaleText]
  have hread := Literal.ofText?_toText hspelled hnumeral
  have hnumerator : literal.magnitude.numerator = Nat.ofDigitChars 10 digits 0 * Binary64.unitsPerOne := by
    simp [Decimal.numerator, Literal.magnitude, literal, powerOfTen]
  rw [htext] at hread
  rw [finiteValue?, hread, Option.map_some, Literal.nearest, Decimal.ofRank_rank, hnumerator]
  rfl

end Token

namespace Binary64

/-! ### Decimal display -/

/-- The decimal that the decimal display shows. -/
def shownDecimal (rank : Nat) : Decimal :=
  if rank = 0 then ⟨0, 0⟩ else Decimal.shortest rank

theorem rank_shownDecimal {rank : Nat} (hrank : rank < infinityRank) : (shownDecimal rank).rank = rank := by
  rw [shownDecimal]
  split
  · rename_i hzero
    exact hzero.symm
  · exact Decimal.rank_shortest hrank

theorem denotes_decimalText (negative : Bool) (rank : Nat) :
    Denotes (signed negative (decimalText rank)) negative (shownDecimal rank).value := by
  rw [decimalText, shownDecimal]
  split
  · exact Decimal.denotes_pointed negative _
  · split
    · exact Decimal.denotes_pointed negative _
    · exact Decimal.denotes_scientific negative _

theorem finiteValue?_signed_decimalText (negative : Bool) {rank : Nat} (hrank : rank < infinityRank) :
    Token.finiteValue? (signed negative (decimalText rank)) = some (.finite negative rank hrank) := by
  have hread := rank_shownDecimal hrank
  rw [Token.finiteValue?_of_denotes (denotes_decimalText negative rank) (hread.trans_lt hrank)]
  simp only [hread]

theorem finiteValue?_display_decimal {value : Binary64} (hfinite : value.isFinite = true) :
    Token.finiteValue? (value.display .decimal) = some value := by
  cases value with
  | finite negative rank hrank => exact finiteValue?_signed_decimalText negative hrank
  | nan => cases hfinite
  | infinite negative => cases hfinite

/-! ### Compact display -/

/-- The value of a rank, counted in the last place of the compact display. -/
def inLastPlace (rank : Nat) : ℚ :=
  units rank * powerOfTen compactPlaces / unitsPerOne

theorem roundsTo_compactScaled (rank : Nat) : RoundsTo (inLastPlace rank) (compactScaled rank) := by
  have hround := roundsTo_roundDiv (units rank * powerOfTen compactPlaces) Decimal.unitsPerOne_pos
  rw [Nat.cast_mul] at hround
  exact hround

/-- The decimal that a compact display shows. -/
def compactDecimal (rank : Nat) : Decimal :=
  ⟨compactScaled rank, -compactPlaces⟩

theorem value_compactDecimal (rank : Nat) :
    (compactDecimal rank).value = compactScaled rank / powerOfTen compactPlaces := by
  have hpower : powerOfTen (compactDecimal rank).exponent.toNat = 1 := rfl
  have hplaces : (-(compactDecimal rank).exponent).toNat = compactPlaces := rfl
  rw [Decimal.value_eq_div, hpower, hplaces, Nat.cast_one, mul_one]
  rfl

/-- The number read lies no farther from the shown one than the first number does. -/
theorem abs_inLastPlace_nearest_le (rank : Nat) :
    let nearest := nearestRank (compactDecimal rank).numerator (compactDecimal rank).denominator
    |inLastPlace nearest - compactScaled rank| ≤ |inLastPlace rank - compactScaled rank| := by
  intro nearest
  have hnearest : |_ - (units nearest : ℚ)| ≤ |_ - (units rank : ℚ)| :=
    abs_sub_units_nearestRank_le _ (compactDecimal rank).denominator_pos rank
  rw [Decimal.numerator_div_denominator, value_compactDecimal] at hnearest
  have hunits := Decimal.cast_unitsPerOne_pos
  have hplaces := Decimal.cast_powerOfTen_pos compactPlaces
  have hfactor : (0 : ℚ) < powerOfTen compactPlaces / unitsPerOne := div_pos hplaces hunits
  have hscale : ∀ r : Nat, |inLastPlace r - compactScaled rank| =
      |(compactScaled rank / powerOfTen compactPlaces * unitsPerOne : ℚ) - units r| *
        (powerOfTen compactPlaces / unitsPerOne) := by
    intro r
    rw [abs_sub_comm, inLastPlace, ← abs_of_pos hfactor, ← abs_mul]
    congr 1
    field_simp
  rw [hscale, hscale]
  exact mul_le_mul_of_nonneg_right hnearest hfactor.le

/-- Beyond the last finite number the values lie more than one apart. -/
theorem units_add_unitsPerOne_le {rank other : Nat} (hrank : rank < infinityRank) (hother : infinityRank ≤ other) :
    units rank + unitsPerOne ≤ units other := by
  have hlast : units (infinityRank - 1) + unitsPerOne ≤ units infinityRank := by decide +kernel
  have hbelow : units rank ≤ units (infinityRank - 1) := units_strictMono.monotone (by omega)
  have habove : units infinityRank ≤ units other := units_strictMono.monotone hother
  omega

theorem inLastPlace_add_one_lt {rank other : Nat} (hrank : rank < infinityRank)
    (hother : infinityRank ≤ other) : inLastPlace rank + 1 < inLastPlace other := by
  have hunits := Decimal.cast_unitsPerOne_pos
  have hplaces := Decimal.cast_powerOfTen_pos compactPlaces
  have hone : (1 : ℚ) < powerOfTen compactPlaces := by
    have hplaces : 1 < powerOfTen compactPlaces := by decide
    exact_mod_cast hplaces
  have hgap : (units rank + unitsPerOne : ℚ) ≤ units other := by
    exact_mod_cast units_add_unitsPerOne_le hrank hother
  calc inLastPlace rank + 1 < inLastPlace rank + powerOfTen compactPlaces := by linarith
    _ = (units rank + unitsPerOne) * powerOfTen compactPlaces / unitsPerOne := by
      rw [inLastPlace, add_mul, add_div, mul_div_cancel_left₀ _ hunits.ne']
    _ ≤ inLastPlace other :=
      div_le_div_of_nonneg_right (mul_le_mul_of_nonneg_right hgap hplaces.le) hunits.le

/-- The shown decimal is read as a finite number that is rounded to the shown decimal again. -/
theorem rank_compactDecimal {rank : Nat} (hrank : rank < infinityRank) :
    (compactDecimal rank).rank < infinityRank ∧
      compactScaled (compactDecimal rank).rank = compactScaled rank := by
  have hround := roundsTo_compactScaled rank
  have hnearer := abs_inLastPlace_nearest_le rank
  rw [Decimal.rank_eq]
  generalize nearestRank _ _ = nearest at hnearer ⊢
  have hfinite : nearest < infinityRank := by
    by_contra hinfinite
    have hapart := inLastPlace_add_one_lt hrank (not_lt.mp hinfinite)
    have hhalf := hround.abs_sub_le_half
    linarith [(abs_le.mp hhalf).1, (abs_le.mp (hnearer.trans hhalf)).2]
  rw [Nat.min_eq_right hfinite.le]
  exact ⟨hfinite, (roundsTo_compactScaled nearest).unique (hround.of_abs_sub_le hnearer)⟩

/-! ### Displays that are read again -/

theorem finiteValue?_plain (negative : Bool) {rank : Nat} (hrank : (compactDecimal rank).rank < infinityRank) :
    Token.finiteValue? (signed negative (Decimal.plain (compactScaled rank) compactPlaces)) =
      some (.finite negative (compactDecimal rank).rank hrank) := by
  apply Token.finiteValue?_of_denotes
  rw [value_compactDecimal]
  exact Decimal.denotes_plain negative _ _

theorem compactScaled_zero : compactScaled 0 = 0 := by
  decide

/-- A finite number is displayed as a numeral, and the number that is read has the same display. -/
theorem exists_finiteValue?_display (format : DisplayFormat) {value : Binary64}
    (hfinite : value.isFinite = true) :
    ∃ again : Binary64, again.isFinite = true ∧ Token.finiteValue? (value.display format) = some again ∧
      again.display format = value.display format := by
  cases format with
  | decimal => exact ⟨value, hfinite, finiteValue?_display_decimal hfinite, rfl⟩
  | compact =>
    cases value with
    | nan => cases hfinite
    | infinite negative => cases hfinite
    | finite negative rank hrank =>
      rw [display, displayFinite]
      split
      · exact ⟨zero false, rfl, by decide +kernel, rfl⟩
      · rename_i hne
        split
        · rename_i hvanishing
          refine ⟨.finite negative rank hrank, rfl, finiteValue?_signed_decimalText negative hrank, ?_⟩
          rw [display, displayFinite, if_neg hne, if_pos hvanishing]
        · rename_i hvisible
          obtain ⟨hagain, hsame⟩ := rank_compactDecimal hrank
          have hnonzero : (compactDecimal rank).rank ≠ 0 := by
            intro hzero
            rw [hzero, compactScaled_zero] at hsame
            exact hvisible hsame.symm
          refine ⟨.finite negative _ hagain, rfl, finiteValue?_plain negative hagain, ?_⟩
          rw [display, displayFinite, if_neg hnonzero, hsame, if_neg hvisible]

end Binary64

/-- The decimal display of a finite number is a lexeme for just that number, sign of a zero included. -/
theorem decimal_display_reads_back (value : Binary64) (hfinite : value.isFinite = true) :
    Token.ofLexeme (value.display .decimal) = .ok (.number (value.display .decimal) value) :=
  Token.ofLexeme_of_finiteValue? (Binary64.finiteValue?_display_decimal hfinite)

/-- The number next to zero, with a sign. -/
theorem decimal_display_reads_back_least :
    let least := Binary64.ofRank true 1
    least.isFinite = true ∧ least.display .decimal = "-5.0E-324".toList ∧
      Token.ofLexeme "-5.0E-324".toList = .ok (.number "-5.0E-324".toList least) := by
  intro least
  have hfinite : least.isFinite = true := by decide
  have hshown : least.display .decimal = "-5.0E-324".toList := by decide +kernel
  have hread := decimal_display_reads_back least hfinite
  rw [hshown] at hread
  exact ⟨hfinite, hshown, hread⟩

end FourFunction
