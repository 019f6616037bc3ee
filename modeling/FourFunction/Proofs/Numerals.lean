import Mathlib.Data.List.Induction
import Mathlib.Data.List.TakeWhile
import FourFunction.Decimal.Literal
import FourFunction.Proofs.DecimalRank
import FourFunction.Proofs.DisplayText

/-!
# The numerals that layouts spell

Which number a text denotes. A literal whose parts are digits is read back from its spelling, and the
value of a spelling is a sum over its two runs of digits, in which zeros behind a fraction do not count.
So each layout of a decimal denotes the value of that decimal.
-/

namespace FourFunction

open Text

/-! ### Reading a spelled literal -/

namespace Text

theorem takeWhile_digits {digits rest : Text} (hdigits : digits.AreDigits)
    (hrest : ∀ c ∈ rest.head?, c.isDigit = false) : (digits ++ rest).takeWhile Char.isDigit = digits := by
  rw [List.takeWhile_append_of_pos hdigits]
  cases rest with
  | nil => rw [List.takeWhile_nil, List.append_nil]
  | cons c rest => rw [List.takeWhile_cons_of_neg (by simp [hrest c rfl]), List.append_nil]

theorem dropWhile_digits {digits rest : Text} (hdigits : digits.AreDigits)
    (hrest : ∀ c ∈ rest.head?, c.isDigit = false) : (digits ++ rest).dropWhile Char.isDigit = rest := by
  rw [List.dropWhile_append_of_pos hdigits]
  cases rest with
  | nil => rfl
  | cons c rest => rw [List.dropWhile_cons_of_neg (by simp [hrest c rfl])]

end Text

theorem Sign.ofSymbol?_of_isDigit {c : Char} (hc : c.isDigit = true) : Sign.ofSymbol? c = none := by
  unfold Sign.ofSymbol?
  split
  · cases hc
  · cases hc
  · rfl

theorem Sign.scan_toText_append (sign : Option Sign) {rest : Text}
    (hrest : ∀ c ∈ rest.head?, Sign.ofSymbol? c = none) :
    Sign.scan (Sign.toText sign ++ rest) = (sign, rest) := by
  match sign, rest with
  | some .plus, _ => rfl
  | some .minus, _ => rfl
  | none, [] => rfl
  | none, c :: rest => simp [Sign.toText, Sign.scan, hrest c rfl]

/-- The text starts with nothing that a literal in front of it could take. -/
def EndsLiteral (rest : Text) : Prop :=
  ∀ c ∈ rest.head?, c.isDigit = false ∧ Sign.ofSymbol? c = none ∧ c ≠ '.' ∧ c ≠ 'e' ∧ c ≠ 'E'

theorem endsLiteral_nil : EndsLiteral [] := by
  intro c hc
  cases hc

theorem Scale.scan_toText_append {scale : Scale} {rest : Text} (hdigits : scale.digits.AreDigits)
    (hrest : EndsLiteral rest) : Scale.scan (scale.toText ++ rest) = (some scale, rest) := by
  obtain ⟨capital, sign, digits⟩ := scale
  have hstop : ∀ c ∈ rest.head?, c.isDigit = false := fun c hc => (hrest c hc).1
  have hsign : ∀ c ∈ (digits ++ rest).head?, Sign.ofSymbol? c = none := by
    intro c hc
    cases digits with
    | nil => exact (hrest c hc).2.1
    | cons digit digits =>
      obtain rfl := Option.some.inj hc
      exact Sign.ofSymbol?_of_isDigit (hdigits _ (List.mem_cons_self ..))
  have hscan := Sign.scan_toText_append sign hsign
  have hrun := takeWhile_digits hdigits hstop
  have hleft := dropWhile_digits hdigits hstop
  cases capital <;>
    simp [Scale.toText, Scale.mark, Scale.scan, Scale.scanAfterMark, hscan, hrun, hleft]

namespace Literal

/-- Each part that should be digits is digits, or missing. -/
structure IsSpelled (literal : Literal) : Prop where
  whole_digits : literal.whole.AreDigits
  fraction_digits : ∀ digits ∈ literal.fraction, digits.AreDigits
  scale_digits : ∀ scale ∈ literal.scale, scale.digits.AreDigits

section

variable {rest : Text}

/-- What follows the digits of a number ends them, and is neither a sign nor a point. -/
theorem head?_scaleText (scale : Option Scale) (hrest : EndsLiteral rest) :
    ∀ c ∈ (scaleText scale ++ rest).head?, c.isDigit = false ∧ Sign.ofSymbol? c = none ∧ c ≠ '.' := by
  match scale with
  | none => exact fun c hc => ⟨(hrest c hc).1, (hrest c hc).2.1, (hrest c hc).2.2.1⟩
  | some ⟨false, _, _⟩ => simp [scaleText, Scale.toText, Scale.mark, Sign.ofSymbol?]
  | some ⟨true, _, _⟩ => simp [scaleText, Scale.toText, Scale.mark, Sign.ofSymbol?]

theorem head?_fractionText (fraction : Option Text) (scale : Option Scale) (hrest : EndsLiteral rest) :
    ∀ c ∈ (fractionText fraction ++ (scaleText scale ++ rest)).head?,
      c.isDigit = false ∧ Sign.ofSymbol? c = none := by
  have hhead := head?_scaleText scale hrest
  cases fraction with
  | none => exact fun c hc => ⟨(hhead c hc).1, (hhead c hc).2.1⟩
  | some digits => simp [fractionText, Sign.ofSymbol?]

theorem scanFraction_append {fraction : Option Text} (hdigits : ∀ digits ∈ fraction, digits.AreDigits)
    (scale : Option Scale) (hrest : EndsLiteral rest) :
    scanFraction (fractionText fraction ++ (scaleText scale ++ rest)) = (fraction, scaleText scale ++ rest) := by
  have hhead := head?_scaleText scale hrest
  cases fraction with
  | none =>
    rw [fractionText, List.nil_append]
    unfold scanFraction
    split
    · rename_i behind hpoint
      rw [hpoint] at hhead
      exact absurd rfl (hhead '.' rfl).2.2
    · rfl
  | some digits =>
    have hstop : ∀ c ∈ (scaleText scale ++ rest).head?, c.isDigit = false := fun c hc => (hhead c hc).1
    have hrun := hdigits digits rfl
    rw [fractionText, List.cons_append, scanFraction, takeWhile_digits hrun hstop,
      dropWhile_digits hrun hstop]

theorem scan_scaleText {scale : Option Scale} (hdigits : ∀ part ∈ scale, part.digits.AreDigits)
    (hrest : EndsLiteral rest) : Scale.scan (scaleText scale ++ rest) = (scale, rest) := by
  cases scale with
  | none =>
    rw [scaleText, List.nil_append]
    unfold Scale.scan
    split
    · exact absurd rfl (hrest 'e' rfl).2.2.2.1
    · exact absurd rfl (hrest 'E' rfl).2.2.2.2
    · rfl
  | some part => exact Scale.scan_toText_append (hdigits part rfl) hrest

theorem scan_toText_append {literal : Literal} (hspelled : literal.IsSpelled) (hrest : EndsLiteral rest) :
    scan (literal.toText ++ rest) = (literal, rest) := by
  obtain ⟨sign, whole, fraction, scale⟩ := literal
  obtain ⟨hwhole, hfraction, hscale⟩ := hspelled
  have hbehind := head?_fractionText fraction scale hrest
  have hstop : ∀ c ∈ (fractionText fraction ++ (scaleText scale ++ rest)).head?, c.isDigit = false :=
    fun c hc => (hbehind c hc).1
  have hunsigned : ∀ c ∈ (whole ++ (fractionText fraction ++ (scaleText scale ++ rest))).head?,
      Sign.ofSymbol? c = none := by
    intro c hc
    cases whole with
    | nil => exact (hbehind c hc).2
    | cons digit behind =>
      obtain rfl := Option.some.inj hc
      exact Sign.ofSymbol?_of_isDigit (hwhole _ (List.mem_cons_self ..))
  rw [toText, List.append_assoc, List.append_assoc, List.append_assoc, scan,
    Sign.scan_toText_append sign hunsigned]
  simp only [takeWhile_digits hwhole hstop, dropWhile_digits hwhole hstop,
    scanFraction_append hfraction scale hrest, scan_scaleText hscale hrest]

theorem scan_toText {literal : Literal} (hspelled : literal.IsSpelled) :
    scan literal.toText = (literal, []) := by
  have hscan := scan_toText_append hspelled endsLiteral_nil
  rwa [List.append_nil] at hscan

end

theorem ofText?_toText {literal : Literal} (hspelled : literal.IsSpelled) (hnumeral : literal.IsNumeral) :
    ofText? literal.toText = some literal := by
  rw [ofText?, scan_toText hspelled]
  exact if_pos ⟨rfl, hnumeral⟩

end Literal

/-! ### Values of digits -/

/-- The value of digits behind a point. -/
def fractionValue (digits : Text) : ℚ :=
  Nat.ofDigitChars 10 digits 0 / 10 ^ digits.length

theorem ofDigitChars_append (left right : Text) :
    Nat.ofDigitChars 10 (left ++ right) 0 =
      10 ^ right.length * Nat.ofDigitChars 10 left 0 + Nat.ofDigitChars 10 right 0 := by
  rw [Nat.ofDigitChars_append, Nat.ofDigitChars_eq_ofDigitChars_zero]

theorem fractionValue_concat_zero (digits : Text) :
    fractionValue (digits ++ ['0']) = fractionValue digits := by
  have hzero : Nat.ofDigitChars 10 ['0'] 0 = 0 := rfl
  rw [fractionValue, fractionValue, ofDigitChars_append, hzero, List.length_append, List.length_singleton]
  push_cast
  field_simp
  ring

theorem fractionValue_dropTrailingZeros (digits : Text) :
    fractionValue (Decimal.dropTrailingZeros digits) = fractionValue digits := by
  induction digits using List.reverseRecOn with
  | nil => rfl
  | append_singleton front last ih =>
    rw [Decimal.dropTrailingZeros, List.reverse_append, List.reverse_singleton, List.singleton_append,
      List.dropWhile_cons]
    split
    · rename_i hlast
      rw [beq_iff_eq.mp hlast, fractionValue_concat_zero, ← ih, Decimal.dropTrailingZeros]
    · rw [List.reverse_cons, List.reverse_reverse]

theorem fractionValue_orZero (digits : Text) :
    fractionValue (Decimal.orZero digits) = fractionValue digits := by
  rw [Decimal.orZero]
  split
  · rename_i hnone
    rw [hnone]
    exact fractionValue_concat_zero []
  · rfl

theorem ofDigitChars_wholeText (n : Nat) : Nat.ofDigitChars 10 (Decimal.wholeText n) 0 = n :=
  Nat.ofDigitChars_ten_toDigits

theorem ofDigitChars_leftpad (places : Nat) (digits : Text) :
    Nat.ofDigitChars 10 (digits.leftpad places '0') 0 = Nat.ofDigitChars 10 digits 0 := by
  rw [List.leftpad, ofDigitChars_append, Nat.ofDigitChars_replicate_zero, Nat.mul_zero, Nat.mul_zero,
    Nat.zero_add]

/-- Padded to the number of places, the digits behind the point are counted in the last place. -/
theorem fractionValue_fractionPart (scaled places : Nat) :
    fractionValue (Decimal.fractionPart scaled places) =
      (scaled % powerOfTen places : Nat) / powerOfTen places := by
  have hbound : scaled % powerOfTen places < 10 ^ places := Nat.mod_lt _ (Decimal.powerOfTen_pos places)
  rw [Decimal.fractionPart, fractionValue_dropTrailingZeros, fractionValue, ofDigitChars_leftpad,
    ofDigitChars_wholeText, List.length_leftpad, Decimal.cast_powerOfTen]
  generalize scaled % powerOfTen places = rest at hbound
  rcases Nat.eq_zero_or_pos places with rfl | hplaces
  · obtain rfl : rest = 0 := Nat.lt_one_iff.mp hbound
    simp
  · have hlength : (Decimal.wholeText rest).length ≤ places :=
      (Nat.length_toDigits_le_iff (by decide) hplaces).mpr hbound
    rw [Nat.max_eq_left hlength]

/-- The two runs of digits of a positional layout. -/
theorem positional_value (scaled places : Nat) :
    Nat.ofDigitChars 10 (Decimal.wholePart scaled places) 0 +
      fractionValue (Decimal.fractionPart scaled places) = scaled / powerOfTen places := by
  have hne : (powerOfTen places : ℚ) ≠ 0 := (Decimal.cast_powerOfTen_pos places).ne'
  have hdivision : ((powerOfTen places * (scaled / powerOfTen places) + scaled % powerOfTen places : Nat) : ℚ) =
      scaled := by rw [Nat.div_add_mod]
  push_cast at hdivision
  rw [Decimal.wholePart, ofDigitChars_wholeText, fractionValue_fractionPart, eq_div_iff hne, add_mul,
    div_mul_cancel₀ _ hne, mul_comm]
  exact hdivision

/-! ### The number that a text denotes -/

theorem value_magnitude (literal : Literal) :
    literal.magnitude.value =
      (Nat.ofDigitChars 10 literal.whole 0 + fractionValue (literal.fraction.getD [])) *
        10 ^ (literal.scale.map Scale.exponent).getD 0 := by
  rw [Literal.magnitude, Decimal.value, ofDigitChars_append, fractionValue, zpow_sub₀ (by norm_num), zpow_natCast]
  push_cast
  field_simp

/-- The text is a numeral with this sign and this magnitude. -/
def Denotes (text : Text) (negative : Bool) (magnitude : ℚ) : Prop :=
  ∃ literal, Literal.ofText? text = some literal ∧
    (literal.sign = some .minus ↔ negative = true) ∧ literal.magnitude.value = magnitude

def signOf (negative : Bool) : Option Sign :=
  if negative then some .minus else none

theorem signOf_eq_minus_iff (negative : Bool) : signOf negative = some .minus ↔ negative = true := by
  cases negative <;> simp [signOf]

/-- The layouts differ in what stands behind the sign. -/
theorem denotes_of_isSpelled {negative : Bool} {text : Text} {literal : Literal}
    (hspelled : literal.IsSpelled) (hnumeral : literal.IsNumeral) (hsign : literal.sign = signOf negative)
    (htext : literal.toText = Sign.toText (signOf negative) ++ text) :
    Denotes (Binary64.signed negative text) negative literal.magnitude.value := by
  have hsigned : Binary64.signed negative text = literal.toText := by
    rw [htext]
    cases negative <;> rfl
  refine ⟨literal, ?_, by rw [hsign, signOf_eq_minus_iff], rfl⟩
  rw [hsigned, Literal.ofText?_toText hspelled hnumeral]

namespace Decimal

theorem areDigits_orZero {digits : Text} (hdigits : digits.AreDigits) : (orZero digits).AreDigits := by
  rw [orZero]
  split
  · decide
  · exact hdigits

theorem denotes_pointed (negative : Bool) (d : Decimal) :
    Denotes (Binary64.signed negative d.pointed) negative d.value := by
  let scaled := d.coefficient * powerOfTen d.exponent.toNat
  let places := (-d.exponent).toNat
  let literal : Literal :=
    ⟨signOf negative, wholePart scaled places, some (orZero (fractionPart scaled places)), none⟩
  have hspelled : literal.IsSpelled :=
    ⟨areDigits_wholeText _, by simpa [literal] using areDigits_orZero (areDigits_fractionPart _ _),
      by simp [literal]⟩
  have hnumeral : literal.IsNumeral := ⟨.inl (wholeText_ne_nil _), by simp [literal]⟩
  have hvalue : literal.magnitude.value = d.value := by
    rw [value_magnitude, value_eq_div, ← Nat.cast_mul, ← positional_value]
    simp [literal, fractionValue_orZero, scaled, places]
  rw [← hvalue]
  refine denotes_of_isSpelled hspelled hnumeral rfl ?_
  simp [literal, Literal.toText, Literal.fractionText, Literal.scaleText, pointed, scaled, places]

theorem denotes_plain (negative : Bool) (scaled places : Nat) :
    Denotes (Binary64.signed negative (plain scaled places)) negative (scaled / powerOfTen places) := by
  let fraction := fractionPart scaled places
  let literal : Literal :=
    ⟨signOf negative, wholePart scaled places, if fraction = [] then none else some fraction, none⟩
  have hdigits : fraction.AreDigits := areDigits_fractionPart _ _
  have hspelled : literal.IsSpelled := by
    refine ⟨areDigits_wholeText _, ?_, by simp [literal]⟩
    intro digits hsome
    have hsame := (Option.ite_none_left_eq_some.mp hsome).2
    exact Option.some.inj hsame ▸ hdigits
  have hnumeral : literal.IsNumeral := ⟨.inl (wholeText_ne_nil _), by simp [literal]⟩
  have hfraction : literal.fraction.getD [] = fraction := by
    by_cases hnone : fraction = [] <;> simp [literal, hnone]
  have hvalue : literal.magnitude.value = scaled / powerOfTen places := by
    rw [value_magnitude, hfraction, ← positional_value]
    simp [literal, fraction]
  rw [← hvalue]
  refine denotes_of_isSpelled hspelled hnumeral rfl ?_
  by_cases hnone : fractionPart scaled places = [] <;>
    simp [literal, fraction, Literal.toText, Literal.fractionText, Literal.scaleText, plain, hnone]

/-- The exponent of a scientific layout, as a literal has it. -/
def scaleOf (exponent : Int) : Scale :=
  ⟨true, signOf (exponent < 0), wholeText exponent.natAbs⟩

theorem toText_scaleOf (exponent : Int) : (scaleOf exponent).toText = 'E' :: integerText exponent := by
  rw [scaleOf, Scale.toText, integerText]
  by_cases hnegative : exponent < 0
  · simp only [hnegative, decide_true, if_true]
    rfl
  · simp only [hnegative, decide_false, if_false]
    rfl

theorem exponent_scaleOf (exponent : Int) : (scaleOf exponent).exponent = exponent := by
  rw [Scale.exponent, scaleOf]
  simp only [ofDigitChars_wholeText, signOf_eq_minus_iff, decide_eq_true_eq]
  split <;> omega

/-- A point behind the first digit divides by a power of ten. -/
theorem scientific_value (digits : Text) :
    (Nat.ofDigitChars 10 (digits.take 1) 0 + fractionValue (digits.drop 1) : ℚ) * 10 ^ (digits.length - 1) =
      Nat.ofDigitChars 10 digits 0 := by
  have hwhole : Nat.ofDigitChars 10 digits 0 =
      10 ^ (digits.drop 1).length * Nat.ofDigitChars 10 (digits.take 1) 0 +
        Nat.ofDigitChars 10 (digits.drop 1) 0 := by
    rw [← ofDigitChars_append, List.take_append_drop]
  rw [hwhole, fractionValue, List.length_drop]
  push_cast
  field_simp

theorem denotes_scientific (negative : Bool) (d : Decimal) :
    Denotes (Binary64.signed negative d.scientific) negative d.value := by
  let digits := wholeText d.coefficient
  let literal : Literal :=
    ⟨signOf negative, digits.take 1, some (orZero (digits.drop 1)),
      some (scaleOf (d.exponent + (digits.length - 1)))⟩
  have hdigits : digits.AreDigits := areDigits_wholeText _
  have hlead : AreDigits (digits.take 1) := fun c hc => hdigits c (List.mem_of_mem_take hc)
  have hrest : AreDigits (digits.drop 1) := fun c hc => hdigits c (List.mem_of_mem_drop hc)
  have hne : digits ≠ [] := wholeText_ne_nil _
  have hspelled : literal.IsSpelled := by
    refine ⟨hlead, ?_, ?_⟩
    · simpa [literal] using areDigits_orZero hrest
    · simpa [literal, scaleOf] using areDigits_wholeText _
  have hnumeral : literal.IsNumeral := by
    refine ⟨.inl (by simpa [literal] using hne), ?_⟩
    simpa [literal, scaleOf] using wholeText_ne_nil _
  have hvalue : literal.magnitude.value = d.value := by
    have hlength : (digits.length : Int) - 1 = (digits.length - 1 : Nat) := by
      have hpos := List.length_pos_iff.mpr hne
      omega
    have hscientific := scientific_value digits
    rw [ofDigitChars_wholeText] at hscientific
    rw [value_magnitude, value, ← hscientific, mul_assoc, ← zpow_natCast, ← zpow_add₀ (by norm_num)]
    simp [literal, fractionValue_orZero, exponent_scaleOf, hlength, add_comm]
  rw [← hvalue]
  refine denotes_of_isSpelled hspelled hnumeral rfl ?_
  simp [literal, Literal.toText, Literal.fractionText, Literal.scaleText, toText_scaleOf, scientific, digits]

end Decimal

end FourFunction
