import FourFunction.Proofs.AcceptedEntry
import FourFunction.Proofs.Backspace
import FourFunction.Proofs.EntryKeys

/-!
# Correcting a digit

A wrong digit, a backspace and the right digit. They leave what the right digit alone would have left,
except where the wrong one was the first behind an operator: there the backspace takes the space of the
operator too, and the right digit is glued to the operator. The entry then has an even number of lexemes,
so equals finds no value for it.
-/

namespace FourFunction

open Text

/-! ### A digit and a backspace -/

namespace Session

/-- The session after a wrong digit, a backspace and the right digit. -/
def corrected (session : Session) (wrong right : Fin 10) : Session :=
  session.pressAll [DigitRun.key wrong, .backspace, DigitRun.key right]

theorem entry_corrected (session : Session) (wrong right : Fin 10) :
    (session.corrected wrong right).entry = ⟨trimEnd session.entry.text ++ [DigitRun.symbol right]⟩ := by
  have hvisible := isBlank_of_isDigit (DigitRun.isDigit_symbol wrong)
  have hback : ((session.press (DigitRun.key wrong)).press .backspace).entry =
      ⟨trimEnd session.entry.text⟩ := by
    show (session.press (DigitRun.key wrong)).entry.backspace = _
    rw [entry_press_key, Entry.backspace_concat _ hvisible]
  show (((session.press (DigitRun.key wrong)).press .backspace).press (DigitRun.key right)).entry = _
  rw [entry_press_key, hback]

/-- Only the entry can differ from that of the right digit alone, by the blanks at the end before. -/
theorem corrected_eq_press_iff (session : Session) (wrong right : Fin 10) :
    session.corrected wrong right = session.press (DigitRun.key right) ↔
      trimEnd session.entry.text = session.entry.text := by
  have hcorrected : session.corrected wrong right =
      { session with entry := (session.corrected wrong right).entry } := rfl
  have hpress : session.press (DigitRun.key right) =
      { session with entry := (session.press (DigitRun.key right)).entry } := rfl
  rw [hcorrected, hpress, entry_corrected, entry_press_key]
  simp

end Session

/-! ### Blanks at the end of a line -/

theorem Line.trimEnd_text_eq_iff {line : Line} (hvalid : line.IsValid) :
    trimEnd line.text = line.text ↔ line.text.getLast? ≠ some ' ' := by
  constructor
  · intro htrim hspace
    have hvisible := isBlank_of_mem_getLast?_trimEnd line.text ' ' (by rw [htrim]; exact hspace)
    exact absurd hvisible (by decide)
  · intro hlast
    rw [ne_eq, getLast?_text_eq_space_iff hvalid, Option.not_isSome_iff_eq_none] at hlast
    rw [text_of_trailing_none hlast, trimEnd_body hvalid]

/-! ### Digits glued to an operator -/

namespace Line

variable {line : Line} {op : Operator}

/-- The line whose operator at the end has lost its second space to a digit. -/
def glued (line : Line) (op : Operator) (digit : Char) : Line :=
  ⟨line.first, ⟨op, true, [digit]⟩ :: line.segments, none⟩

theorem text_glued (htrailing : line.trailing = some op) (digit : Char) :
    (line.glued op digit).text = trimEnd line.text ++ [digit] := by
  rw [trimEnd_text_of_trailing htrailing]
  simp [glued, text, body, trailingText, Segment.textOf, Segment.text]

theorem isValid_glued (hvalid : line.IsValid) (htrailing : line.trailing = some op) {digit : Char}
    (hdigit : digit.isDigit = true) : (line.glued op digit).IsValid := by
  have hsegment : Segment.IsValid ⟨op, true, [digit]⟩ := ⟨areDigits_singleton hdigit, fun _ => rfl⟩
  refine ⟨hvalid.first_visible, List.forall_mem_cons.mpr ⟨hsegment, hvalid.segments_valid⟩, ?_⟩
  intro hnil
  have hbare := (hvalid.bare_of_nil hnil).2
  rw [htrailing] at hbare
  cases hbare

theorem length_lexemesOf {segments : List Segment} (hplain : ∀ segment ∈ segments, segment.IsPlain) :
    (Segment.lexemesOf segments).length = 2 * segments.length := by
  induction segments with
  | nil => rfl
  | cons segment older ih =>
    obtain ⟨⟨hglued, _⟩, holder⟩ := List.forall_mem_cons.mp hplain
    rw [Segment.lexemesOf, List.length_append, ih holder, List.length_cons]
    simp [Segment.lexemes, hglued]
    omega

/-- An operand, operators with operands, and the glued operator. -/
theorem length_lexemes_glued (hplain : ∀ segment ∈ line.segments, segment.IsPlain) (digit : Char) :
    (line.glued op digit).lexemes.length = 2 * (line.segments.length + 1) := by
  rw [lexemes, glued, Segment.lexemesOf, List.length_append, List.length_cons, List.length_append,
    length_lexemesOf hplain]
  simp [Segment.lexemes, trailingLexemes]
  omega

end Line

theorem Token.numberCount_add_operatorCount {α : Type} (tokens : List (Token α)) :
    numberCount tokens + operatorCount tokens = tokens.length := by
  induction tokens with
  | nil => rfl
  | cons token tokens ih =>
    rw [List.length_cons, ← ih]
    cases token with
    | number text value =>
      rw [numberCount_cons_number, operatorCount_cons_number]
      omega
    | operator op =>
      rw [numberCount_cons_operator, operatorCount_cons_operator]
      omega

/-- A text with a value has one number more than operators. -/
theorem odd_length_split_of_calculate {text : Text} {value : Binary64}
    (hvalue : calculate text = .ok value) : (Lexeme.split text).length % 2 = 1 := by
  obtain ⟨tokens, htokens, hcounts⟩ := exists_tokens_of_calculate hvalue
  have hlength := Token.numberCount_add_operatorCount tokens
  rw [(Token.ofText_eq_ok_iff.mp htokens).1, List.length_map]
  omega

namespace Session

theorem exists_error_corrected (config : Config) (keys : List EntryKey) (wrong right : Fin 10)
    (hspace : (entered config keys).entry.text.getLast? = some ' ') :
    ∃ error, ((entered config keys).corrected wrong right).outcome = .error error := by
  obtain ⟨line, hkeyed, htext⟩ := exists_keyed_line config keys
  rw [htext] at hspace
  have hvalid := hkeyed.isValid
  obtain ⟨op, htrailing⟩ := Line.exists_trailing_of_getLast? hvalid hspace
  have hplain : line.IsPlain config.format :=
    hkeyed.isPlain fun hnil => by rw [hnil] at hspace; cases hspace
  have hglued := Line.isValid_glued hvalid htrailing (DigitRun.isDigit_symbol right)
  have hcorrected : ((entered config keys).corrected wrong right).entry.text =
      (line.glued op (DigitRun.symbol right)).text := by
    rw [entry_corrected, htext, Line.text_glued htrailing]
  cases houtcome : ((entered config keys).corrected wrong right).outcome with
  | error error => exact ⟨error, rfl⟩
  | ok shown =>
    obtain ⟨value, hvalue, _⟩ := outcome_eq_ok_iff.mp houtcome
    have hodd := odd_length_split_of_calculate hvalue
    rw [hcorrected, Line.split_text hglued, Line.length_lexemes_glued hplain.segments_plain] at hodd
    omega

end Session

/-- A corrected digit leaves the session that the right digit alone would have left just if no space was
at the end before it. Behind a space the right digit is glued to the operator there, and equals answers
with an error. -/
theorem digit_correction (config : Config) (keys : List EntryKey) (wrong right : Fin 10) :
    let before := Session.entered config keys
    let corrected := before.corrected wrong right
    (corrected = Session.entered config (keys ++ [.digit right]) ↔
      before.entry.text.getLast? ≠ some ' ') ∧
    (before.entry.text.getLast? = some ' ' →
      corrected.entry.text = trimEnd before.entry.text ++ [DigitRun.symbol right] ∧
        ∃ error, corrected.outcome = .error error) := by
  intro before corrected
  have hretyped : Session.entered config (keys ++ [.digit right]) = before.press (DigitRun.key right) := by
    rw [Session.entered, List.map_append]
    exact Session.pressAll_concat _ _ _
  obtain ⟨line, hkeyed, htext⟩ := Session.exists_keyed_line config keys
  constructor
  · rw [hretyped, Session.corrected_eq_press_iff, htext]
    exact Line.trimEnd_text_eq_iff hkeyed.isValid
  · intro hspace
    refine ⟨?_, Session.exists_error_corrected config keys wrong right hspace⟩
    exact congrArg Entry.text (Session.entry_corrected before wrong right)

/-- The second digit of an operand is corrected. -/
theorem digit_correction_second :
    let keys : List EntryKey := [.digit 1, .operator .add, .digit 2]
    (Session.entered {} keys).entry.text.getLast? ≠ some ' ' ∧
      (Session.entered {} keys).corrected 3 4 = Session.entered {} (keys ++ [.digit 4]) := by
  intro keys
  have hlast : (Session.entered {} keys).entry.text.getLast? ≠ some ' ' := by decide
  exact ⟨hlast, (digit_correction {} keys 3 4).1.mpr hlast⟩

/-- The first digit of an operand is not: the entry is `1 +3`, where `1 + 3` was to be entered. -/
theorem digit_correction_first :
    let corrected := (Session.entered {} [.digit 1, .operator .add]).corrected 2 3
    let retyped := Session.entered {} [.digit 1, .operator .add, .digit 3]
    corrected.entry.text = ['1', ' ', '+', '3'] ∧ retyped.entry.text = ['1', ' ', '+', ' ', '3'] ∧
      corrected.outcome = .error (.operandCount 1 2) ∧ retyped.outcome = .ok ['4', '.', '0'] := by
  decide +kernel

end FourFunction
