import FourFunction.Proofs.Numerals

/-!
# The texts that are numerals

Scanning loses nothing: the literal taken off the front of a text and the rest spell the text, and the
parts of the literal that should be digits are digits. With the converse, that a spelled literal is
scanned back, the numerals are just the spellings of literals with a digit and with digits behind a mark,
and no text spells two of them.
-/

namespace FourFunction

open Text

/-! ### Scanning parts -/

namespace Text

theorem areDigits_takeWhile (text : Text) : AreDigits (text.takeWhile Char.isDigit) :=
  fun _ hc => List.mem_takeWhile_imp hc

end Text

theorem Sign.symbol_of_ofSymbol? {c : Char} {sign : Sign} (hsign : ofSymbol? c = some sign) :
    sign.symbol = c := by
  unfold ofSymbol? at hsign
  split at hsign
  · obtain rfl := Option.some.inj hsign
    rfl
  · obtain rfl := Option.some.inj hsign
    rfl
  · cases hsign

theorem Sign.toText_scan (text : Text) : toText (scan text).1 ++ (scan text).2 = text := by
  cases text with
  | nil => rfl
  | cons c rest =>
    rw [scan]
    split
    · rename_i sign hsign
      rw [toText, symbol_of_ofSymbol? hsign, List.singleton_append]
    · rfl

theorem Scale.toText_scanAfterMark (capital : Bool) (text : Text) :
    let scanned := scanAfterMark capital text
    scanned.1.toText ++ scanned.2 = scanned.1.mark :: text ∧ scanned.1.digits.AreDigits := by
  refine ⟨?_, areDigits_takeWhile _⟩
  simp only [scanAfterMark, toText, List.cons_append, List.append_assoc]
  rw [List.takeWhile_append_dropWhile, Sign.toText_scan]

namespace Literal

theorem scaleText_scan (text : Text) :
    scaleText (Scale.scan text).1 ++ (Scale.scan text).2 = text ∧
      ∀ scale ∈ (Scale.scan text).1, scale.digits.AreDigits := by
  unfold Scale.scan
  split
  · rename_i rest
    obtain ⟨hspelled, hdigits⟩ := Scale.toText_scanAfterMark false rest
    exact ⟨hspelled, fun scale hscale => Option.some.inj hscale ▸ hdigits⟩
  · rename_i rest
    obtain ⟨hspelled, hdigits⟩ := Scale.toText_scanAfterMark true rest
    exact ⟨hspelled, fun scale hscale => Option.some.inj hscale ▸ hdigits⟩
  · refine ⟨rfl, ?_⟩
    intro scale hscale
    cases hscale

theorem fractionText_scanFraction (text : Text) :
    fractionText (scanFraction text).1 ++ (scanFraction text).2 = text ∧
      ∀ digits ∈ (scanFraction text).1, digits.AreDigits := by
  unfold scanFraction
  split
  · rename_i rest
    refine ⟨?_, fun digits hdigits => Option.some.inj hdigits ▸ areDigits_takeWhile rest⟩
    rw [fractionText, List.cons_append, List.takeWhile_append_dropWhile]
  · refine ⟨rfl, ?_⟩
    intro digits hdigits
    cases hdigits

/-! ### Scanning a literal -/

theorem toText_scan (text : Text) : (scan text).1.toText ++ (scan text).2 = text := by
  simp only [scan, toText, List.append_assoc]
  rw [(scaleText_scan _).1, (fractionText_scanFraction _).1, List.takeWhile_append_dropWhile,
    Sign.toText_scan]

theorem isSpelled_scan (text : Text) : (scan text).1.IsSpelled :=
  ⟨areDigits_takeWhile _, (fractionText_scanFraction _).2, (scaleText_scan _).2⟩

/-! ### Numerals -/

/-- The grammar of numerals: perhaps a sign, digits with perhaps a point and at least one digit, and
perhaps a mark with perhaps a sign and at least one digit. -/
structure Spells (literal : Literal) (text : Text) : Prop where
  is_spelled : literal.IsSpelled
  is_numeral : literal.IsNumeral
  to_text : literal.toText = text

theorem ofText?_eq_some_iff {text : Text} {literal : Literal} :
    ofText? text = some literal ↔ literal.Spells text := by
  constructor
  · intro hread
    have hspelled := isSpelled_scan text
    have htext := toText_scan text
    rw [ofText?] at hread
    generalize scan text = scanned at hread hspelled htext
    obtain ⟨other, rest⟩ := scanned
    obtain ⟨⟨hrest, hnumeral⟩, hsame⟩ := Option.ite_none_right_eq_some.mp hread
    obtain rfl : other = literal := Option.some.inj hsame
    refine ⟨hspelled, hnumeral, ?_⟩
    simpa [hrest] using htext
  · intro hspells
    obtain ⟨hspelled, hnumeral, rfl⟩ := hspells
    exact ofText?_toText hspelled hnumeral

theorem Spells.exists_digit {literal : Literal} {text : Text} (hspells : literal.Spells text) :
    ∃ c ∈ text, c.isDigit = true := by
  obtain ⟨hspelled, ⟨hdigits, _⟩, rfl⟩ := hspells
  rcases hdigits with hwhole | hfraction
  · obtain ⟨c, hc⟩ := List.exists_mem_of_ne_nil _ hwhole
    exact ⟨c, by simp [toText, hc], hspelled.whole_digits c hc⟩
  · cases hsome : literal.fraction with
    | none => simp [hsome] at hfraction
    | some digits =>
      rw [hsome] at hfraction
      obtain ⟨c, hc⟩ := List.exists_mem_of_ne_nil digits hfraction
      exact ⟨c, by simp [toText, hsome, fractionText, hc], hspelled.fraction_digits digits hsome c hc⟩

end Literal

end FourFunction
