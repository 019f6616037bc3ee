import Mathlib.Data.Nat.Cast.Field
import FourFunction.Proofs.DisplayReading
import FourFunction.Proofs.NearestNumber
import FourFunction.Proofs.PlainExpansion

/-!
# The compact display

The compact display can be worked out in branches: whole numbers below a limit are written without
places, other numbers with all places, from which zeros and a point at the end are cut off, and the
decimal display is shown where only a zero would be left. The branches meet: they are one rule about the
value rounded to the last place, in which the limit does not occur. The rule says which text is shown of
every finite number, and that of a number other than zero it is never a zero.
-/

namespace FourFunction

open Text

/-! ### Texts that start with a digit -/

namespace Text

def StartsWithDigit (text : Text) : Prop :=
  ∃ c ∈ text.head?, c.isDigit = true

theorem AreDigits.startsWithDigit_append {digits : Text} (hdigits : digits.AreDigits) (hne : digits ≠ [])
    (rest : Text) : StartsWithDigit (digits ++ rest) := by
  cases digits with
  | nil => exact absurd rfl hne
  | cons c later => exact ⟨c, rfl, hdigits c (List.mem_cons_self ..)⟩

/-- The text with a minus sign in front, or without the one there. -/
def flipSign : Text → Text
  | '-' :: rest => rest
  | text => '-' :: text

theorem flipSign_of_startsWithDigit {text : Text} (hstart : text.StartsWithDigit) :
    flipSign text = '-' :: text := by
  unfold flipSign
  split
  · obtain ⟨c, hc, hdigit⟩ := hstart
    obtain rfl := Option.some.inj hc
    cases hdigit
  · rfl

end Text

namespace Decimal

theorem startsWithDigit_plain (scaled places : Nat) : (plain scaled places).StartsWithDigit :=
  (areDigits_wholeText _).startsWithDigit_append (wholeText_ne_nil _) _

theorem startsWithDigit_pointed (d : Decimal) : d.pointed.StartsWithDigit :=
  (areDigits_wholeText _).startsWithDigit_append (wholeText_ne_nil _) _

theorem startsWithDigit_scientific (d : Decimal) : d.scientific.StartsWithDigit := by
  have hdigits := areDigits_wholeText d.coefficient
  have hlead : AreDigits ((wholeText d.coefficient).take 1) :=
    fun c hc => hdigits c (List.mem_of_mem_take hc)
  have hne : (wholeText d.coefficient).take 1 ≠ [] := by
    simpa using wholeText_ne_nil d.coefficient
  rw [scientific, List.append_assoc]
  exact hlead.startsWithDigit_append hne _

end Decimal

namespace Binary64

theorem startsWithDigit_decimalText (rank : Nat) : (decimalText rank).StartsWithDigit := by
  rw [decimalText]
  split
  · exact Decimal.startsWithDigit_pointed _
  · split
    · exact Decimal.startsWithDigit_pointed _
    · exact Decimal.startsWithDigit_scientific _

theorem flipSign_signed (negative : Bool) {text : Text} (hstart : text.StartsWithDigit) :
    flipSign (signed negative text) = signed (!negative) text := by
  cases negative
  · exact flipSign_of_startsWithDigit hstart
  · rfl

theorem signed_eq_zero_iff (negative : Bool) {text : Text} (hstart : text.StartsWithDigit) :
    signed negative text = ['0'] ∨ signed negative text = ['-', '0'] ↔ text = ['0'] := by
  cases negative with
  | true => simp [signed]
  | false =>
    refine or_iff_left ?_
    intro htext
    obtain ⟨c, hc, hdigit⟩ := hstart
    rw [show text = ['-', '0'] from htext] at hc
    obtain rfl := Option.some.inj hc
    cases hdigit

/-! ### The display in branches -/

/-- The magnitude rounded to a number of places, counted in the last place. -/
def scaledTo (rank places : Nat) : Nat :=
  roundDiv (units rank * powerOfTen places) unitsPerOne

/-- Whole numbers below this one are written without places. -/
def wholeEnd : Decimal := ⟨1, 15⟩

/-- The text with all places, without the zeros and then the points at its end. -/
def trimmedText (negative : Bool) (rank : Nat) : Text :=
  let fixed := signed negative (Decimal.fixed (scaledTo rank compactPlaces) compactPlaces)
  (fixed.rdropWhile (· == '0')).rdropWhile (· == '.')

def finiteBranches (negative : Bool) (rank : Nat) : Text :=
  if rank = 0 then ['0']
  else if units rank % unitsPerOne = 0 ∧ rank < wholeEnd.rank then
    signed negative (Decimal.fixed (scaledTo rank 0) 0)
  else if trimmedText negative rank = ['0'] ∨ trimmedText negative rank = ['-', '0'] then
    signed negative (decimalText rank)
  else trimmedText negative rank

/-- The compact display, worked out in branches. -/
def compactBranches : Binary64 → Text
  | nan => nanText
  | infinite negative => signed negative infinityText
  | finite negative rank _ => finiteBranches negative rank

theorem signed_eq_append (negative : Bool) (text : Text) :
    signed negative text = signed negative [] ++ text := by
  cases negative <;> rfl

theorem scaledTo_compactPlaces (rank : Nat) : scaledTo rank compactPlaces = compactScaled rank := by
  rw [scaledTo, compactScaled]

theorem trimmedText_eq (negative : Bool) (rank : Nat) :
    trimmedText negative rank = signed negative (Decimal.plain (compactScaled rank) compactPlaces) := by
  have hplaces : compactPlaces ≠ 0 := by decide
  have htrimmed := Decimal.rdropWhile_fixed (signed negative []) (compactScaled rank) hplaces
  rw [← signed_eq_append, ← signed_eq_append] at htrimmed
  rw [trimmedText, scaledTo_compactPlaces]
  exact htrimmed

/-! ### Whole numbers -/

theorem roundsTo_self (n : Nat) : RoundsTo n n :=
  .inl (by norm_num)

theorem inLastPlace_eq (rank : Nat) : inLastPlace rank = magnitude rank * powerOfTen compactPlaces := by
  rw [inLastPlace, magnitude, div_mul_eq_mul_div]

theorem compactScaled_of_magnitude {rank n : Nat} (hwhole : magnitude rank = n) :
    compactScaled rank = n * powerOfTen compactPlaces := by
  have hround := roundsTo_compactScaled rank
  have hexact : inLastPlace rank = (n * powerOfTen compactPlaces : Nat) := by
    rw [inLastPlace_eq, hwhole, Nat.cast_mul]
  rw [hexact] at hround
  exact hround.unique (roundsTo_self _)

theorem magnitude_of_mod_eq_zero {rank : Nat} (hwhole : units rank % unitsPerOne = 0) :
    magnitude rank = (units rank / unitsPerOne : Nat) := by
  rw [magnitude, Nat.cast_div (Nat.dvd_of_mod_eq_zero hwhole) Decimal.cast_unitsPerOne_pos.ne']

theorem scaledTo_zero {rank : Nat} (hwhole : units rank % unitsPerOne = 0) :
    scaledTo rank 0 = units rank / unitsPerOne := by
  rw [scaledTo, Decimal.powerOfTen_zero, Nat.mul_one]
  apply roundDiv_eq_of_roundsTo Decimal.unitsPerOne_pos
  rw [← magnitude, magnitude_of_mod_eq_zero hwhole]
  exact roundsTo_self _

/-! ### The branches meet -/

/-- The compact display of a magnitude other than zero. -/
def compactText (rank : Nat) : Text :=
  if compactScaled rank = 0 then decimalText rank else Decimal.plain (compactScaled rank) compactPlaces

theorem displayFinite_compact (negative : Bool) {rank : Nat} (hne : rank ≠ 0) :
    displayFinite negative rank .compact = signed negative (compactText rank) := by
  rw [displayFinite, if_neg hne, compactText]
  split <;> rfl

theorem displayFinite_compact_zero (negative : Bool) : displayFinite negative 0 .compact = ['0'] :=
  rfl

theorem compactText_of_magnitude {rank n : Nat} (hn : n ≠ 0) (hwhole : magnitude rank = n) :
    compactText rank = Decimal.wholeText n := by
  have hscaled := compactScaled_of_magnitude hwhole
  have hne : n * powerOfTen compactPlaces ≠ 0 := Nat.mul_ne_zero hn (Decimal.powerOfTen_pos _).ne'
  rw [compactText, hscaled, if_neg hne, Decimal.plain_mul_powerOfTen]

theorem startsWithDigit_compactText (rank : Nat) : (compactText rank).StartsWithDigit := by
  rw [compactText]
  split
  · exact startsWithDigit_decimalText rank
  · exact Decimal.startsWithDigit_plain _ _

theorem displayFinite_compact_eq_finiteBranches (negative : Bool) (rank : Nat) :
    displayFinite negative rank .compact = finiteBranches negative rank := by
  by_cases hzero : rank = 0
  · rw [hzero, displayFinite_compact_zero, finiteBranches, if_pos rfl]
  · rw [displayFinite_compact negative hzero, finiteBranches, if_neg hzero]
    split
    · rename_i hlimit
      have hmagnitude := magnitude_of_mod_eq_zero hlimit.1
      have hne : units rank / unitsPerOne ≠ 0 := by
        have hunits := units_ne_zero hzero
        have hdivision := Nat.div_add_mod (units rank) unitsPerOne
        intro hnone
        rw [hnone, hlimit.1] at hdivision
        exact hunits hdivision.symm
      rw [compactText_of_magnitude hne hmagnitude, scaledTo_zero hlimit.1, Decimal.fixed_zero]
    · rw [trimmedText_eq, compactText]
      simp only [signed_eq_zero_iff negative (Decimal.startsWithDigit_plain _ _), Decimal.plain_eq_zero_iff]
      split <;> rfl

theorem display_compact_eq_compactBranches (number : Binary64) :
    number.display .compact = number.compactBranches := by
  cases number with
  | nan => rfl
  | infinite negative => rfl
  | finite negative rank hrank => exact displayFinite_compact_eq_finiteBranches negative rank

/-! ### What is shown is not zero -/

theorem exists_denotes_compactText (negative : Bool) {rank : Nat} (hrank : rank < infinityRank)
    (hne : rank ≠ 0) : ∃ q : ℚ, 0 < q ∧ Denotes (signed negative (compactText rank)) negative q := by
  rw [compactText]
  split
  · refine ⟨_, lt_of_le_of_ne (shownDecimal rank).value_nonneg ?_, denotes_decimalText negative rank⟩
    intro hzero
    have hnone : (shownDecimal rank).rank = 0 :=
      Decimal.rank_of_value (by rw [← hzero, zero_mul]; rfl) (by decide)
    exact hne ((rank_shownDecimal hrank).symm.trans hnone)
  · rename_i hvisible
    refine ⟨_, ?_, Decimal.denotes_plain negative _ _⟩
    exact div_pos (Nat.cast_pos.mpr (Nat.pos_of_ne_zero hvisible)) (Decimal.cast_powerOfTen_pos _)

theorem signed_compactText_ne_zero (negative other : Bool) {rank : Nat} (hrank : rank < infinityRank)
    (hne : rank ≠ 0) : signed negative (compactText rank) ≠ signed other ['0'] := by
  obtain ⟨q, hpos, hdenotes⟩ := exists_denotes_compactText negative hrank hne
  intro htext
  have hzero := denotes_zero other
  rw [← htext] at hzero
  exact hpos.ne' (hdenotes.unique hzero)

/-! ### The display of a value -/

theorem magnitude_pos {rank : Nat} (hne : rank ≠ 0) : 0 < magnitude rank := by
  rw [← magnitude_zero]
  exact magnitude_strictMono (Nat.pos_of_ne_zero hne)

theorem withSign_lt_zero_iff (negative : Bool) {q : ℚ} (hq : 0 < q) :
    withSign negative q < 0 ↔ negative = true := by
  cases negative
  · exact iff_of_false hq.not_gt Bool.false_ne_true
  · exact iff_of_true (neg_neg_of_pos hq) rfl

theorem withSign_eq_zero_iff (negative : Bool) {rank : Nat} :
    withSign negative (magnitude rank) = 0 ↔ rank = 0 := by
  rw [← withSign_zero negative, (withSign_injective negative).eq_iff, ← magnitude_zero,
    magnitude_strictMono.injective.eq_iff]

/-- A whole number is shown as its digits, whatever its size. -/
theorem signed_compactText_of_whole {negative : Bool} {rank : Nat} {n : ℤ} (hn : n ≠ 0)
    (hwhole : withSign negative (magnitude rank) = n) :
    signed negative (compactText rank) = Decimal.integerText n := by
  have habs : magnitude rank = n.natAbs := by
    rw [← abs_withSign negative (magnitude_nonneg rank), hwhole, Nat.cast_natAbs, Int.cast_abs]
  have hpos : 0 < magnitude rank := by
    rw [habs]
    exact Nat.cast_pos.mpr (Int.natAbs_pos.mpr hn)
  have hsign : n < 0 ↔ negative = true := by
    rw [← withSign_lt_zero_iff negative hpos, hwhole, Int.cast_lt_zero]
  rw [compactText_of_magnitude (Int.natAbs_ne_zero.mpr hn) habs, Decimal.integerText, signed]
  simp only [hsign]

theorem exists_roundsTo_compactText (negative : Bool) (rank : Nat) :
    ∃ n : Nat, RoundsTo (magnitude rank * 10 ^ compactPlaces) n ∧
      (n ≠ 0 → ∃ expansion, IsExpansion expansion (n / 10 ^ compactPlaces) ∧
        signed negative (compactText rank) = signed negative expansion) ∧
      (n = 0 → signed negative (compactText rank) = displayFinite negative rank .decimal) := by
  have hround := roundsTo_compactScaled rank
  rw [inLastPlace_eq, Decimal.cast_powerOfTen] at hround
  refine ⟨compactScaled rank, hround, ?_, ?_⟩
  · intro hvisible
    have hexpansion := Decimal.isExpansion_plain (compactScaled rank) compactPlaces
    rw [Decimal.cast_powerOfTen] at hexpansion
    exact ⟨_, hexpansion, by rw [compactText, if_neg hvisible]⟩
  · intro hvanishing
    rw [compactText, if_pos hvanishing]
    rfl

end Binary64

open Binary64

/-- The compact display of a finite number. Its branches are one rule: zero is shown as `0`, a whole number
as its digits, and any other number as the expansion of its value rounded to the last place, or as the
decimal display if that is zero. So no number other than zero is shown as a zero, and the opposite number
is shown with the other sign. -/
theorem compact_display (number : Binary64) (value : ℚ) (hvalue : number.value? = some value) :
    let shown := number.display .compact
    shown = number.compactBranches ∧
    (shown = ['0'] ↔ value = 0) ∧
    (∀ n : ℤ, n ≠ 0 → value = n → shown = Decimal.integerText n) ∧
    (value ≠ 0 → ∃ n : Nat, RoundsTo (|value| * 10 ^ compactPlaces) n ∧
      (n ≠ 0 → ∃ expansion, IsExpansion expansion (n / 10 ^ compactPlaces) ∧
        shown = signed (value < 0) expansion) ∧
      (n = 0 → shown = number.display .decimal)) ∧
    shown ≠ ['-', '0'] ∧
    (value ≠ 0 → ∃ q : ℚ, 0 < q ∧ Denotes shown (value < 0) q) ∧
    (value ≠ 0 → number.neg.display .compact = flipSign shown) := by
  intro shown
  refine ⟨display_compact_eq_compactBranches number, ?_⟩
  cases number with
  | nan => cases hvalue
  | infinite negative => cases hvalue
  | finite negative rank hrank =>
    obtain rfl := Option.some.inj hvalue
    by_cases hzero : rank = 0
    · subst hzero
      have hnone : withSign negative (magnitude 0) = 0 := (withSign_eq_zero_iff negative).mpr rfl
      have hshown : shown = ['0'] := displayFinite_compact_zero negative
      rw [hnone, hshown]
      refine ⟨iff_of_true rfl rfl, ?_, fun hne => absurd rfl hne, by decide, fun hne => absurd rfl hne,
        fun hne => absurd rfl hne⟩
      intro n hn hwhole
      exact absurd (Int.cast_eq_zero.mp hwhole.symm) hn
    · have hshown : shown = signed negative (compactText rank) := displayFinite_compact negative hzero
      have hsign : decide (withSign negative (magnitude rank) < 0) = negative := by
        rw [Bool.eq_iff_iff, decide_eq_true_iff, withSign_lt_zero_iff negative (magnitude_pos hzero)]
      have hne : withSign negative (magnitude rank) ≠ 0 := mt (withSign_eq_zero_iff negative).mp hzero
      rw [hsign, abs_withSign negative (magnitude_nonneg rank), hshown]
      refine ⟨iff_of_false (signed_compactText_ne_zero negative false hrank hzero) hne,
        fun n hn hwhole => signed_compactText_of_whole hn hwhole,
        fun _ => exists_roundsTo_compactText negative rank,
        signed_compactText_ne_zero negative true hrank hzero,
        fun _ => exists_denotes_compactText negative hrank hzero, ?_⟩
      intro _
      rw [flipSign_signed negative (startsWithDigit_compactText rank)]
      exact displayFinite_compact (!negative) hzero

/-- A value halfway between two in the last place, of which the even one is shown, and a whole number far
beyond the limit of the branches. -/
theorem compact_display_halfway :
    let halfway := ofRank true (1012 * blockSize)
    let shown := "-0.0004882812".toList
    let large := ofRank false (1093 * blockSize)
    (halfway.value? = some (-(1 / 2048)) ∧ halfway.display .compact = shown ∧
      halfway.compactBranches = shown ∧ halfway.neg.display .compact = flipSign shown) ∧
    (large.value? = some (2 ^ 70) ∧ large.display .compact = Decimal.integerText (2 ^ 70)) := by
  intro halfway shown large
  have hhalfwayUnits : units (1012 * blockSize) * 2048 = unitsPerOne := by decide +kernel
  have hlargeUnits : units (1093 * blockSize) = 2 ^ 70 * unitsPerOne := by decide +kernel
  have hhalfway : halfway.value? = some (-(1 / 2048)) := by
    have hrank : 1012 * blockSize < infinityRank := by decide
    have hmagnitude : magnitude (1012 * blockSize) = 1 / 2048 := by
      rw [magnitude, div_eq_div_iff Decimal.cast_unitsPerOne_pos.ne' (by norm_num), one_mul,
        ← hhalfwayUnits, Nat.cast_mul, Nat.cast_ofNat]
    rw [← hmagnitude, show halfway = finite true _ hrank from dif_pos hrank]
    rfl
  have hlarge : large.value? = some (2 ^ 70) := by
    have hrank : 1093 * blockSize < infinityRank := by decide
    have hmagnitude : magnitude (1093 * blockSize) = 2 ^ 70 := by
      rw [magnitude, hlargeUnits, Nat.cast_mul, mul_div_cancel_right₀ _ Decimal.cast_unitsPerOne_pos.ne',
        Nat.cast_pow, Nat.cast_ofNat]
    rw [← hmagnitude, show large = finite false _ hrank from dif_pos hrank]
    rfl
  have hshown : halfway.display .compact = shown := by decide +kernel
  obtain ⟨hbranches, _, _, _, _, _, hneg⟩ := compact_display halfway _ hhalfway
  obtain ⟨_, _, hinteger, _⟩ := compact_display large _ hlarge
  rw [hshown] at hbranches hneg
  exact ⟨⟨hhalfway, hshown, hbranches.symm, hneg (by norm_num)⟩, hlarge,
    hinteger (2 ^ 70) (by norm_num) (by norm_num)⟩

end FourFunction
