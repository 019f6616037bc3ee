import Mathlib.Data.List.DropRight
import FourFunction.Proofs.Numerals

/-!
# Plain decimal expansions

A number is written as the digits of its whole part and, if it has a fraction, a point and digits that do
not end in zero. The plain layout writes such an expansion, and only for zero it is a lone zero. The same
text is left of a layout with all its places when first the zeros and then the points at its end are cut
off.
-/

namespace FourFunction

open Text

/-- The text is the expansion of the number, without an exponent, a zero at the end of the fraction or a
point at the end. -/
def IsExpansion (text : Text) (q : ℚ) : Prop :=
  ∃ fraction : Text, fraction.AreDigits ∧ fraction.getLast? ≠ some '0' ∧
    fractionValue fraction = q - ⌊q⌋₊ ∧
    text = Decimal.wholeText ⌊q⌋₊ ++ if fraction = [] then [] else '.' :: fraction

/-! ### Cutting off the end of a text -/

namespace Text

/-- A character that is not cut off keeps what is in front of it. -/
theorem rdropWhile_append_cons {p : Char → Bool} {c : Char} (hc : p c = false) (front rest : Text) :
    (front ++ c :: rest).rdropWhile p = front ++ c :: rest.rdropWhile p := by
  induction rest using List.reverseRecOn with
  | nil => exact List.rdropWhile_concat_neg p front c (by simp [hc])
  | append_singleton rest last ih =>
    rw [← List.cons_append, ← List.append_assoc, List.rdropWhile_concat, List.rdropWhile_concat]
    split
    · exact ih
    · rw [List.append_assoc, List.cons_append]

theorem rdropWhile_append_digits {p : Char → Bool} (hp : ∀ c, c.isDigit = true → p c = false)
    (front : Text) {digits : Text} (hdigits : digits.AreDigits) (hne : digits ≠ []) :
    (front ++ digits).rdropWhile p = front ++ digits := by
  obtain ⟨before, last, rfl⟩ := List.eq_nil_or_concat digits |>.resolve_left hne
  have hlast := hp last (hdigits last (by simp))
  rw [List.concat_eq_append, ← List.append_assoc]
  exact List.rdropWhile_concat_neg p _ last (by simp [hlast])

end Text

namespace Decimal

theorem dropTrailingZeros_eq (digits : Text) : dropTrailingZeros digits = digits.rdropWhile (· == '0') :=
  rfl

theorem getLast?_dropTrailingZeros (digits : Text) : (dropTrailingZeros digits).getLast? ≠ some '0' := by
  intro hzero
  have hne : digits.rdropWhile (· == '0') ≠ [] := by
    intro hnil
    rw [dropTrailingZeros_eq, hnil] at hzero
    cases hzero
  have hlast := List.rdropWhile_last_not _ digits hne
  rw [dropTrailingZeros_eq, List.getLast?_eq_some_getLast hne, Option.some.injEq] at hzero
  rw [hzero] at hlast
  exact hlast rfl

/-- The layout with all its places. -/
def fixed (scaled places : Nat) : Text :=
  wholePart scaled places ++
    if places = 0 then [] else '.' :: (wholeText (scaled % powerOfTen places)).leftpad places '0'

theorem fixed_zero (n : Nat) : fixed n 0 = wholeText n := by
  rw [fixed, if_pos rfl, List.append_nil, wholePart, powerOfTen_zero, Nat.div_one]

/-- Cut off at the end, first zeros and then points, the layout with places is the plain one. -/
theorem rdropWhile_fixed (front : Text) (scaled : Nat) {places : Nat} (hplaces : places ≠ 0) :
    ((front ++ fixed scaled places).rdropWhile (· == '0')).rdropWhile (· == '.') =
      front ++ plain scaled places := by
  have hpoint : ∀ c : Char, c.isDigit = true → (c == '.') = false := by
    intro c hc
    rw [beq_eq_false_iff_ne]
    rintro rfl
    cases hc
  rw [fixed, if_neg hplaces, ← List.append_assoc, rdropWhile_append_cons (p := (· == '0')) rfl,
    ← dropTrailingZeros_eq, ← fractionPart, plain]
  by_cases hfraction : fractionPart scaled places = []
  · rw [hfraction, if_pos rfl, List.append_nil, List.rdropWhile_concat_pos _ _ _ (by rfl)]
    exact rdropWhile_append_digits hpoint front (areDigits_wholeText _) (wholeText_ne_nil _)
  · have hkept := rdropWhile_append_digits hpoint (front ++ wholePart scaled places ++ ['.'])
      (areDigits_fractionPart scaled places) hfraction
    rw [if_neg hfraction]
    simpa using hkept

/-! ### The plain layout -/

theorem isExpansion_plain (scaled places : Nat) :
    IsExpansion (plain scaled places) (scaled / powerOfTen places) := by
  have hfloor : ⌊(scaled / powerOfTen places : ℚ)⌋₊ = scaled / powerOfTen places :=
    Nat.floor_div_eq_div scaled (powerOfTen places)
  have hvalue := positional_value scaled places
  rw [wholePart, ofDigitChars_wholeText] at hvalue
  refine ⟨fractionPart scaled places, areDigits_fractionPart scaled places,
    getLast?_dropTrailingZeros _, ?_, ?_⟩
  · rw [hfloor, ← hvalue, add_sub_cancel_left]
  · rw [hfloor]
    rfl

/-- A whole number has no fraction. -/
theorem plain_mul_powerOfTen (n places : Nat) : plain (n * powerOfTen places) places = wholeText n := by
  have hpos := powerOfTen_pos places
  have hfraction : fractionPart (n * powerOfTen places) places = [] := by
    rw [fractionPart, Nat.mul_mod_left, dropTrailingZeros_eq, List.rdropWhile_eq_nil_iff, List.leftpad]
    have hzero : wholeText 0 = ['0'] := rfl
    intro c hc
    rw [hzero, List.mem_append, List.mem_replicate, List.mem_singleton] at hc
    rcases hc with ⟨_, rfl⟩ | rfl <;> rfl
  rw [plain, hfraction, wholePart, Nat.mul_div_cancel _ hpos]
  exact List.append_nil _

end Decimal

/-! ### Texts of zero -/

/-- A text denotes one magnitude only. -/
theorem Denotes.unique {text : Text} {left right : Bool} {a b : ℚ} (hleft : Denotes text left a)
    (hright : Denotes text right b) : a = b := by
  obtain ⟨literal, hread, _, rfl⟩ := hleft
  obtain ⟨other, hother, _, rfl⟩ := hright
  obtain rfl := Option.some.inj (hread.symm.trans hother)
  rfl

theorem denotes_zero (negative : Bool) : Denotes (Binary64.signed negative ['0']) negative 0 := by
  have hzero := Decimal.denotes_plain negative 0 0
  rw [Nat.cast_zero, zero_div] at hzero
  exact hzero

theorem Decimal.plain_eq_zero_iff {scaled places : Nat} : plain scaled places = ['0'] ↔ scaled = 0 := by
  have hplaces := cast_powerOfTen_pos places
  constructor
  · intro htext
    have hvalue := denotes_plain false scaled places
    have hzero := denotes_zero false
    rw [htext] at hvalue
    have hsame := hvalue.unique hzero
    rw [div_eq_zero_iff, or_iff_left hplaces.ne'] at hsame
    exact_mod_cast hsame
  · rintro rfl
    have hwhole := plain_mul_powerOfTen 0 places
    rw [Nat.zero_mul] at hwhole
    exact hwhole

end FourFunction
