import FourFunction.Proofs.PlainExpansion

/-!
# Significant digits

The digits of a numeral without the zeros at both ends. Digits that do not start with a zero are the
digits of their value, and a value is a whole number without a zero at its end times a power of ten in one
way only. So the significant digits are the digits of that whole number, however the numeral is laid out.
-/

namespace FourFunction

open Text

/-! ### Digits and their value -/

namespace Decimal

theorem digitChar_sub_of_isDigit {c : Char} (hc : c.isDigit = true) :
    c.toNat - '0'.toNat < 10 ∧ Nat.digitChar (c.toNat - '0'.toNat) = c := by
  simp only [Char.isDigit, ge_iff_le, Bool.and_eq_true, decide_eq_true_eq, UInt32.le_iff_toNat_le] at hc
  change 48 ≤ c.toNat ∧ c.toNat ≤ 57 at hc
  have hless : c.toNat - 48 < 10 := by omega
  refine ⟨hless, Char.toNat_inj.mp ?_⟩
  show (Nat.digitChar (c.toNat - 48)).toNat = c.toNat
  rw [Nat.toNat_digitChar_of_lt_ten hless]
  omega

theorem digitChar_eq_zero_iff {d : Nat} (hd : d < 10) : Nat.digitChar d = '0' ↔ d = 0 := by
  have hall : ∀ d < 10, (Nat.digitChar d = '0' ↔ d = 0) := by decide
  exact hall d hd

theorem ofDigitChars_concat_digitChar (front : Text) {d : Nat} (hd : d < 10) :
    Nat.ofDigitChars 10 (front ++ [Nat.digitChar d]) 0 = 10 * Nat.ofDigitChars 10 front 0 + d := by
  rw [Nat.ofDigitChars_append, Nat.ofDigitChars_cons_digitChar_of_lt_ten hd, Nat.ofDigitChars_nil]

/-- The digits of a number are those of a tenth of it and its last digit. -/
theorem wholeText_eq (n : Nat) :
    wholeText n = if n < 10 then [Nat.digitChar n] else wholeText (n / 10) ++ [Nat.digitChar (n % 10)] :=
  Nat.toDigits_eq_if (by decide)

theorem getLast?_wholeText (n : Nat) : (wholeText n).getLast? = some (Nat.digitChar (n % 10)) := by
  rw [wholeText_eq]
  split
  · rename_i hless
    rw [Nat.mod_eq_of_lt hless]
    rfl
  · rw [List.getLast?_concat]

theorem head?_wholeText {n : Nat} (hn : n ≠ 0) : (wholeText n).head? ≠ some '0' := by
  induction n using Nat.strong_induction_on with
  | h n ih =>
    rw [wholeText_eq]
    split
    · rename_i hless
      intro hzero
      exact hn ((digitChar_eq_zero_iff hless).mp (Option.some.inj hzero))
    · rename_i hmore
      rw [List.head?_append_of_ne_nil _ (wholeText_ne_nil _)]
      exact ih (n / 10) (by omega) (by omega)

/-- Digits that do not start with a zero are the digits of their value. -/
theorem wholeText_ofDigitChars {digits : Text} (hdigits : digits.AreDigits) (hne : digits ≠ [])
    (hhead : digits.head? ≠ some '0') : wholeText (Nat.ofDigitChars 10 digits 0) = digits := by
  induction digits using List.reverseRecOn with
  | nil => exact absurd rfl hne
  | append_singleton front last ih =>
    obtain ⟨hfrontDigits, hlastDigit⟩ := List.forall_mem_append.mp hdigits
    obtain ⟨hless, hlast⟩ := digitChar_sub_of_isDigit (hlastDigit last (List.mem_singleton_self last))
    generalize last.toNat - '0'.toNat = d at hless hlast
    subst hlast
    rw [ofDigitChars_concat_digitChar front hless]
    by_cases hfront : front = []
    · rw [hfront, Nat.ofDigitChars_nil, Nat.mul_zero, Nat.zero_add, wholeText, Nat.toDigits_of_lt_base hless]
      rfl
    · rw [List.head?_append_of_ne_nil _ hfront] at hhead
      have hvalue := ih hfrontDigits hfront hhead
      have hpos : 0 < Nat.ofDigitChars 10 front 0 := by
        rw [Nat.pos_iff_ne_zero]
        intro hzero
        rw [hzero] at hvalue
        exact hhead (by rw [← hvalue]; rfl)
      rw [wholeText, ← Nat.toDigits_append_toDigits (by decide) hpos hless, Nat.toDigits_of_lt_base hless]
      exact congrArg (· ++ [Nat.digitChar d]) hvalue

theorem ofDigitChars_mod_ten {digits : Text} (hdigits : digits.AreDigits) (hne : digits ≠ [])
    (hlast : digits.getLast? ≠ some '0') : Nat.ofDigitChars 10 digits 0 % 10 ≠ 0 := by
  obtain ⟨front, last, rfl⟩ := List.eq_nil_or_concat digits |>.resolve_left hne
  rw [List.concat_eq_append] at hdigits hlast ⊢
  obtain ⟨hless, hdigit⟩ := digitChar_sub_of_isDigit (hdigits last (by simp))
  generalize last.toNat - '0'.toNat = d at hless hdigit
  subst hdigit
  rw [List.getLast?_concat, ne_eq, Option.some.injEq, digitChar_eq_zero_iff hless] at hlast
  rw [ofDigitChars_concat_digitChar front hless]
  omega

theorem ofDigitChars_dropWhile_zero (digits : Text) :
    Nat.ofDigitChars 10 (digits.dropWhile (· == '0')) 0 = Nat.ofDigitChars 10 digits 0 := by
  induction digits with
  | nil => rfl
  | cons c rest ih =>
    rw [List.dropWhile_cons]
    split
    · rename_i hzero
      obtain rfl : c = '0' := by simpa using hzero
      exact ih
    · rfl

end Decimal

/-! ### One way to write a value -/

/-- A whole number without a zero at its end and a power of ten are determined by their product. -/
theorem eq_of_mul_ten_zpow {a b : Nat} {e f : Int} (ha : a % 10 ≠ 0) (hb : b % 10 ≠ 0)
    (hsame : (a * 10 ^ e : ℚ) = b * 10 ^ f) : a = b := by
  wlog hle : e ≤ f generalizing a b e f
  · exact (this hb ha hsame.symm (le_of_not_ge hle)).symm
  obtain ⟨k, rfl⟩ := Int.exists_add_of_le hle
  rw [zpow_add₀ (by norm_num), mul_comm ((10 : ℚ) ^ e), ← mul_assoc, zpow_natCast,
    mul_left_inj' (zpow_ne_zero e (by norm_num))] at hsame
  have hwhole : a = b * 10 ^ k := by exact_mod_cast hsame
  cases k with
  | zero => rw [hwhole, pow_zero, Nat.mul_one]
  | succ k =>
    rw [hwhole, pow_succ, ← Nat.mul_assoc, Nat.mul_mod_left] at ha
    exact absurd rfl ha

namespace Literal

/-- The digits of a literal without the zeros at both ends. -/
def significantDigits (literal : Literal) : Text :=
  ((literal.whole ++ literal.fraction.getD []).dropWhile (· == '0')).rdropWhile (· == '0')

variable {literal : Literal}

theorem areDigits_significantDigits (hspelled : literal.IsSpelled) : literal.significantDigits.AreDigits := by
  have hfraction : AreDigits (literal.fraction.getD []) := by
    cases hsome : literal.fraction with
    | none => exact fun c hc => absurd hc List.not_mem_nil
    | some digits => exact hspelled.fraction_digits digits hsome
  intro c hc
  have htrimmed := (List.rdropWhile_prefix _ _).sublist.mem hc
  exact hspelled.whole_digits.append hfraction c ((List.dropWhile_sublist _).mem htrimmed)

theorem getLast?_significantDigits (literal : Literal) : literal.significantDigits.getLast? ≠ some '0' :=
  Decimal.getLast?_dropTrailingZeros _

theorem head?_significantDigits (literal : Literal) : literal.significantDigits.head? ≠ some '0' := by
  intro hzero
  rw [significantDigits] at hzero
  generalize literal.whole ++ literal.fraction.getD [] = digits at hzero
  have hhead := List.head?_dropWhile_not (· == '0') digits
  obtain ⟨zeros, hzeros⟩ := List.rdropWhile_prefix (· == '0') (digits.dropWhile (· == '0'))
  rw [← hzeros, List.head?_append, hzero] at hhead
  cases hhead

/-- The value of a literal counted in the place of its last significant digit. -/
theorem exists_value_significantDigits (literal : Literal) :
    ∃ exponent : Int,
      literal.magnitude.value = Nat.ofDigitChars 10 literal.significantDigits 0 * 10 ^ exponent := by
  let digits := (literal.whole ++ literal.fraction.getD []).dropWhile (· == '0')
  have hleading : Nat.ofDigitChars 10 digits 0 = literal.magnitude.coefficient :=
    Decimal.ofDigitChars_dropWhile_zero _
  have htrailing : fractionValue literal.significantDigits = fractionValue digits :=
    fractionValue_dropTrailingZeros digits
  rw [fractionValue, fractionValue, hleading, div_eq_div_iff (by positivity) (by positivity)] at htrailing
  refine ⟨literal.magnitude.exponent + digits.length - literal.significantDigits.length, ?_⟩
  rw [Decimal.value, zpow_sub₀ (by norm_num), zpow_add₀ (by norm_num), zpow_natCast, zpow_natCast, mul_div_assoc',
    eq_div_iff (by positivity), mul_left_comm, htrailing]
  ring

theorem significantDigits_eq_nil_iff (hspelled : literal.IsSpelled) :
    literal.significantDigits = [] ↔ literal.magnitude.value = 0 := by
  obtain ⟨place, hplace⟩ := literal.exists_value_significantDigits
  constructor
  · intro hnil
    rw [hplace, hnil, Nat.ofDigitChars_nil, Nat.cast_zero, zero_mul]
  · intro hzero
    by_contra hne
    have hlast := Decimal.ofDigitChars_mod_ten (areDigits_significantDigits hspelled) hne
      literal.getLast?_significantDigits
    rw [hplace, mul_eq_zero_iff_right (zpow_ne_zero place (by norm_num)), Nat.cast_eq_zero] at hzero
    rw [hzero] at hlast
    exact hlast rfl

theorem wholeText_significantDigits (hspelled : literal.IsSpelled) (hne : literal.significantDigits ≠ []) :
    Decimal.wholeText (Nat.ofDigitChars 10 literal.significantDigits 0) = literal.significantDigits :=
  Decimal.wholeText_ofDigitChars (areDigits_significantDigits hspelled) hne literal.head?_significantDigits

/-- The significant digits depend on the value only. -/
theorem significantDigits_eq (hspelled : literal.IsSpelled) {n : Nat} {exponent : Int} (hn : n % 10 ≠ 0)
    (hvalue : literal.magnitude.value = n * 10 ^ exponent) : literal.significantDigits = Decimal.wholeText n := by
  obtain ⟨place, hplace⟩ := literal.exists_value_significantDigits
  have hne : literal.significantDigits ≠ [] := by
    rw [ne_eq, significantDigits_eq_nil_iff hspelled, hvalue,
      mul_eq_zero_iff_right (zpow_ne_zero exponent (by norm_num)), Nat.cast_eq_zero]
    rintro rfl
    exact hn rfl
  have hlast := Decimal.ofDigitChars_mod_ten (areDigits_significantDigits hspelled) hne
    literal.getLast?_significantDigits
  rw [← wholeText_significantDigits hspelled hne, eq_of_mul_ten_zpow hlast hn (hplace.symm.trans hvalue)]

end Literal

end FourFunction
