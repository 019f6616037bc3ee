import FourFunction.Display
import FourFunction.Operator

/-!
# The characters of a display

What a display is made of, as far as the rest of an entry depends on it: no blank stands in it, and its
last character is no operator symbol. So a display that is read again is one lexeme, and an operand.
-/

namespace FourFunction

namespace Text

/-! ### Characters -/

theorem isBlank_of_isDigit {c : Char} (hc : c.isDigit = true) : isBlank c = false := by
  simp only [Char.isDigit, ge_iff_le, Bool.and_eq_true, decide_eq_true_eq, UInt32.le_iff_toNat_le] at hc
  change 48 ≤ c.toNat ∧ c.toNat ≤ 57 at hc
  simp only [isBlank, blankRanges, List.any_cons, List.any_nil, Bool.or_false, Bool.or_eq_false_iff,
    Bool.and_eq_false_iff, decide_eq_false_iff_not]
  omega

theorem isBlank_symbol (op : Operator) : isBlank op.symbol = false := by
  cases op <;> decide

theorem isDigit_symbol (op : Operator) : op.symbol.isDigit = false := by
  cases op <;> decide

theorem ne_space_of_isBlank {c : Char} (hc : isBlank c = false) : c ≠ ' ' := by
  rintro rfl
  exact absurd hc (by decide)

/-! ### Runs of characters -/

def AreVisible (text : Text) : Prop :=
  ∀ c ∈ text, isBlank c = false

instance (text : Text) : Decidable text.AreVisible :=
  List.decidableBAll (isBlank · = false) text

theorem areVisible_append {left right : Text} :
    AreVisible (left ++ right) ↔ left.AreVisible ∧ right.AreVisible :=
  List.forall_mem_append

theorem areVisible_symbol (op : Operator) : AreVisible [op.symbol] := by
  intro c hc
  rw [List.mem_singleton.mp hc, isBlank_symbol]

def AreDigits (text : Text) : Prop :=
  ∀ c ∈ text, c.isDigit = true

instance (text : Text) : Decidable text.AreDigits :=
  List.decidableBAll (Char.isDigit · = true) text

theorem AreDigits.areVisible {text : Text} (htext : text.AreDigits) : text.AreVisible :=
  fun c hc => isBlank_of_isDigit (htext c hc)

theorem areDigits_singleton {c : Char} (hc : c.isDigit = true) : AreDigits [c] := by
  intro other hother
  rw [List.mem_singleton.mp hother, hc]

theorem AreDigits.append {left right : Text} (hleft : left.AreDigits) (hright : right.AreDigits) :
    AreDigits (left ++ right) :=
  List.forall_mem_append.mpr ⟨hleft, hright⟩

/-- A text that an operator can follow: visible characters, at least one, and no operator symbol last. -/
def IsOperand (text : Text) : Prop :=
  text.AreVisible ∧ ∃ last ∈ text.getLast?, ∀ op : Operator, last ≠ op.symbol

theorem IsOperand.ne_nil {text : Text} (htext : text.IsOperand) : text ≠ [] := by
  intro hnil
  obtain ⟨_, last, hlast, _⟩ := htext
  rw [hnil] at hlast
  cases hlast

theorem IsOperand.ne_symbol {text : Text} (htext : text.IsOperand) (op : Operator) :
    text ≠ [op.symbol] := by
  intro hsymbol
  obtain ⟨_, last, hlast, hop⟩ := htext
  rw [hsymbol] at hlast
  exact hop op (Option.some.inj hlast).symm

theorem IsOperand.append {front text : Text} (hfront : front.AreVisible) (htext : text.IsOperand) :
    IsOperand (front ++ text) := by
  obtain ⟨hvisible, last, hlast, hop⟩ := htext
  refine ⟨areVisible_append.mpr ⟨hfront, hvisible⟩, last, ?_, hop⟩
  rw [List.getLast?_append, Option.mem_def.mp hlast]
  rfl

theorem AreDigits.isOperand {text : Text} (htext : text.AreDigits) (hne : text ≠ []) :
    text.IsOperand := by
  refine ⟨htext.areVisible, text.getLast hne, List.getLast?_eq_some_getLast hne, ?_⟩
  intro op hop
  have hdigit := htext _ (List.getLast_mem hne)
  rw [hop, isDigit_symbol] at hdigit
  cases hdigit

/-- Digits behind an operand are part of it. -/
theorem IsOperand.append_digits {text digits : Text} (htext : text.IsOperand)
    (hdigits : digits.AreDigits) : IsOperand (text ++ digits) := by
  by_cases hne : digits = []
  · rwa [hne, List.append_nil]
  · exact (hdigits.isOperand hne).append htext.1

end Text

/-! ### Layouts -/

namespace Decimal

open Text

theorem wholeText_ne_nil (n : Nat) : wholeText n ≠ [] :=
  Nat.toDigits_ne_nil

theorem areDigits_wholeText (n : Nat) : (wholeText n).AreDigits :=
  fun _ hc => Nat.isDigit_of_mem_toDigits (by decide) (by decide) hc

theorem areDigits_fractionPart (scaled places : Nat) : (fractionPart scaled places).AreDigits := by
  intro c hc
  rw [fractionPart, dropTrailingZeros, List.mem_reverse] at hc
  have hpadded := List.mem_reverse.mp ((List.dropWhile_sublist _).mem hc)
  rw [List.leftpad] at hpadded
  rcases List.mem_append.mp hpadded with hzero | hdigit
  · rw [(List.mem_replicate.mp hzero).2]
    rfl
  · exact areDigits_wholeText _ c hdigit

theorem isOperand_orZero {digits : Text} (hdigits : digits.AreDigits) : (orZero digits).IsOperand := by
  rw [orZero]
  split
  · have hzero : AreDigits ['0'] := by decide
    exact hzero.isOperand (by simp)
  · rename_i hne
    exact hdigits.isOperand hne

theorem isOperand_integerText (n : Int) : (integerText n).IsOperand := by
  have hmagnitude := (areDigits_wholeText n.natAbs).isOperand (wholeText_ne_nil _)
  have hminus : AreVisible ['-'] := by decide
  rw [integerText]
  split
  · exact hmagnitude.append hminus
  · exact hmagnitude

theorem isOperand_pointed (d : Decimal) : d.pointed.IsOperand := by
  rw [pointed, ← List.singleton_append, ← List.append_assoc]
  have hpoint : AreVisible ['.'] := by decide
  exact (isOperand_orZero (areDigits_fractionPart _ _)).append
    (areVisible_append.mpr ⟨(areDigits_wholeText _).areVisible, hpoint⟩)

theorem isOperand_plain (scaled places : Nat) : (plain scaled places).IsOperand := by
  have hwhole := areDigits_wholeText (scaled / powerOfTen places)
  have hfraction := areDigits_fractionPart scaled places
  rw [plain, wholePart]
  by_cases hnone : fractionPart scaled places = []
  · rw [if_pos hnone, List.append_nil]
    exact hwhole.isOperand (wholeText_ne_nil _)
  · rw [if_neg hnone, ← List.singleton_append, ← List.append_assoc]
    have hpoint : AreVisible ['.'] := by decide
    exact (hfraction.isOperand hnone).append (areVisible_append.mpr ⟨hwhole.areVisible, hpoint⟩)

theorem isOperand_scientific (d : Decimal) : d.scientific.IsOperand := by
  have hdigits := areDigits_wholeText d.coefficient
  have hlead : AreDigits ((wholeText d.coefficient).take 1) :=
    fun c hc => hdigits c (List.mem_of_mem_take hc)
  have hrest : AreDigits ((wholeText d.coefficient).drop 1) :=
    fun c hc => hdigits c (List.mem_of_mem_drop hc)
  have hpoint : AreVisible ['.'] := by decide
  have hmark : AreVisible ['E'] := by decide
  have hmantissa := (isOperand_orZero hrest).append (areVisible_append.mpr ⟨hlead.areVisible, hpoint⟩)
  have hfront := areVisible_append.mpr ⟨hmantissa.1, hmark⟩
  have hexponent := isOperand_integerText (d.exponent + ((wholeText d.coefficient).length - 1))
  simpa [scientific] using hexponent.append hfront

end Decimal

/-! ### Displays -/

namespace Binary64

open Text

theorem isOperand_signed {text : Text} (htext : text.IsOperand) (negative : Bool) :
    (signed negative text).IsOperand := by
  have hminus : AreVisible ['-'] := by decide
  cases negative
  · exact htext
  · exact htext.append hminus

theorem isOperand_decimalText (rank : Nat) : (decimalText rank).IsOperand := by
  rw [decimalText]
  split
  · exact Decimal.isOperand_pointed _
  · split
    · exact Decimal.isOperand_pointed _
    · exact Decimal.isOperand_scientific _

theorem isOperand_display (format : DisplayFormat) (value : Binary64) :
    (display format value).IsOperand := by
  cases value with
  | nan =>
    have hvisible : nanText.AreVisible := by decide
    exact ⟨hvisible, 'N', rfl, fun op => by cases op <;> decide⟩
  | infinite negative =>
    have hvisible : infinityText.AreVisible := by decide
    exact isOperand_signed ⟨hvisible, 'y', rfl, fun op => by cases op <;> decide⟩ negative
  | finite negative rank hrank =>
    cases format with
    | decimal => exact isOperand_signed (isOperand_decimalText rank) negative
    | compact =>
      rw [display, displayFinite]
      split
      · exact Decimal.isOperand_plain 0 0
      · split
        · exact isOperand_signed (isOperand_decimalText rank) negative
        · exact isOperand_signed (Decimal.isOperand_plain _ _) negative

end Binary64

end FourFunction
