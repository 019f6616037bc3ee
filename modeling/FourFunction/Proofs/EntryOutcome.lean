import FourFunction.Proofs.EntryKeys

/-!
# What equals answers to digits and operators

The answer to every entry made of digits and operators, told from the runs of digits in its text. Runs
are too large from `overflowBound` on, and the first that is too large is the error. Else equals answers
with the two-tier value if the entry ends in a digit, and names an empty lexeme if it does not.
-/

namespace FourFunction

open Text

namespace Text

def EndsInDigit (text : Text) : Prop :=
  ∃ last ∈ text.getLast?, last.isDigit = true

instance (text : Text) : Decidable text.EndsInDigit :=
  decidable_of_iff (text.getLast?.any Char.isDigit = true) (by simp [EndsInDigit, Option.any_eq_true])

def firstOverflow? (runs : List Text) : Option Text :=
  runs.find? (overflowBound ≤ wholeValue ·)

theorem firstOverflow?_eq_none_iff {runs : List Text} :
    firstOverflow? runs = none ↔ ∀ run ∈ runs, wholeValue run < overflowBound := by
  simp [firstOverflow?]

end Text

/-- Of digits, those are rejected that are too large. -/
theorem Token.firstRejected?_of_areDigits {runs : List Text}
    (hruns : ∀ run ∈ runs, run.AreDigits ∧ run ≠ []) : firstRejected? runs = firstOverflow? runs := by
  induction runs with
  | nil => rfl
  | cons run later ih =>
    obtain ⟨⟨hdigits, hne⟩, hlater⟩ := List.forall_mem_cons.mp hruns
    rw [firstRejected?_cons, ih hlater, firstOverflow?, firstOverflow?, List.find?_cons]
    simp only [accepts_digits hdigits hne]
    by_cases hbound : wholeValue run < overflowBound
    · rw [if_pos hbound, decide_eq_false (not_le.mpr hbound)]
    · rw [if_neg hbound, decide_eq_true (not_lt.mp hbound)]

/-- A keyed line ends in a digit unless nothing or an operator is there. -/
theorem Line.endsInDigit_text_iff {format : DisplayFormat} {line : Line} (hkeyed : line.IsKeyed format) :
    line.text.EndsInDigit ↔ line.text ≠ [] ∧ line.text.getLast? ≠ some ' ' := by
  constructor
  · intro hend
    obtain ⟨last, hlast, hdigit⟩ := hend
    constructor
    · intro hnil
      rw [hnil] at hlast
      cases hlast
    · intro hspace
      obtain rfl := Option.some.inj (hspace.symm.trans hlast)
      exact absurd hdigit (by decide)
  · intro hends
    obtain ⟨hne, hspace⟩ := hends
    rw [ne_eq, getLast?_text_eq_space_iff hkeyed.isValid, Option.not_isSome_iff_eq_none] at hspace
    have hlast := List.getLast?_eq_some_getLast hne
    exact ⟨_, hlast, isDigit_of_mem_getLast?_text hkeyed hspace _ hlast⟩

namespace Session

theorem AnswersFor.outcome_of_not_isComplete {session : Session} {operands : List Text}
    (hanswers : session.AnswersFor operands) (hincomplete : ¬session.IsComplete operands) :
    session.outcome = .error (.malformed ((Token.firstRejected? operands).getD [])) := by
  cases houtcome : session.outcome with
  | error error => rw [hanswers.2 error houtcome]
  | ok shown => exact absurd (hanswers.1.mp ⟨shown, houtcome⟩) hincomplete

variable (config : Config) (keys : List EntryKey)

theorem answersFor_digitRuns :
    (entered config keys).AnswersFor (digitRuns (entered config keys).entry.text) := by
  obtain ⟨line, hkeyed, htext⟩ := exists_keyed_line config keys
  by_cases hnil : line.text = []
  · rw [htext, hnil]
    exact answersFor_nil (htext.trans hnil)
  · have hplain := hkeyed.isPlain hnil
    rw [htext, Line.digitRuns_text hkeyed hplain]
    exact answersFor_operands hplain htext

theorem isComplete_digitRuns_iff :
    let text := (entered config keys).entry.text
    (entered config keys).IsComplete (digitRuns text) ↔
      text.EndsInDigit ∧ ∀ run ∈ digitRuns text, wholeValue run < overflowBound := by
  intro text
  obtain ⟨line, hkeyed, (htext : text = line.text)⟩ := exists_keyed_line config keys
  have hend : text ≠ [] ∧ text.getLast? ≠ some ' ' ↔ text.EndsInDigit := by
    rw [htext]
    exact (Line.endsInDigit_text_iff hkeyed).symm
  have haccepted : (∀ run ∈ digitRuns text, Token.accepts run = true) ↔
      ∀ run ∈ digitRuns text, wholeValue run < overflowBound := by
    refine forall₂_congr fun run hrun => ?_
    obtain ⟨hdigits, hne⟩ := areDigits_of_mem_digitRuns hrun
    exact Token.accepts_digits hdigits hne
  rw [IsComplete, ← and_assoc, hend, haccepted]

/-- The chain that is read off a complete entry has the value that is shown. -/
theorem exists_isReadOff (hend : (entered config keys).entry.text.EndsInDigit)
    (hbound : ∀ run ∈ digitRuns (entered config keys).entry.text, wholeValue run < overflowBound) :
    ∃ chain : Chain Binary64, chain.IsReadOff (entered config keys).entry.text ∧
      (entered config keys).outcome = .ok ((chain.value Operator.apply).display config.format) := by
  obtain ⟨hne, hlast, _⟩ := (isComplete_digitRuns_iff config keys).mpr ⟨hend, hbound⟩
  obtain ⟨line, hkeyed, htext⟩ := exists_keyed_line config keys
  rw [htext] at hne hlast hbound ⊢
  have hplain := hkeyed.isPlain hne
  have htrailing : line.trailing = none := by
    rwa [ne_eq, Line.getLast?_text_eq_space_iff hkeyed.isValid, Option.not_isSome_iff_eq_none] at hlast
  have hspelled := Line.isSpelledBy_chain hkeyed hplain htrailing hbound
  rw [← htext] at hspelled
  refine ⟨line.chain, Line.isReadOff_chain hkeyed hplain htrailing, ?_⟩
  have houtcome := outcome_of_calculate (Chain.calculate_of_isSpelledBy hspelled)
  rwa [config_entered] at houtcome

end Session

/-- What equals answers to any digits and operators. If the entry ends in a digit, it answers with a
value just if no run of digits is too large, the two-tier value of the numbers nearest to the runs under the
operators of the entry. The first run that is too large is an error, however the entry ends, and if there is none, an entry
that does not end in a digit is an error that names nothing. -/
theorem entered_outcome (config : Config) (keys : List EntryKey) :
    let session := Session.entered config keys
    let text := session.entry.text
    let runs := digitRuns text
    (text.EndsInDigit →
      ((∃ shown, session.outcome = .ok shown) ↔ ∀ run ∈ runs, wholeValue run < overflowBound) ∧
      ((∀ run ∈ runs, wholeValue run < overflowBound) →
        ∃ chain : Chain Binary64, chain.IsReadOff text ∧
          (∀ operand ∈ chain.operands, operand.value.IsNearest (wholeValue operand.text)) ∧
            session.outcome = .ok ((chain.value Operator.apply).display config.format))) ∧
    (∀ run, firstOverflow? runs = some run → session.outcome = .error (.malformed run)) ∧
    ((∀ run ∈ runs, wholeValue run < overflowBound) → ¬text.EndsInDigit →
      session.outcome = .error (.malformed [])) := by
  intro session text runs
  have hanswers : session.AnswersFor runs := Session.answersFor_digitRuns config keys
  have hcomplete : session.IsComplete runs ↔
      text.EndsInDigit ∧ ∀ run ∈ runs, wholeValue run < overflowBound :=
    Session.isComplete_digitRuns_iff config keys
  have hrejected : Token.firstRejected? runs = firstOverflow? runs :=
    Token.firstRejected?_of_areDigits fun _ hrun => areDigits_of_mem_digitRuns hrun
  refine ⟨?_, ?_, ?_⟩
  · intro hend
    constructor
    · rw [hanswers.1, hcomplete]
      exact and_iff_right hend
    · intro hbound
      obtain ⟨chain, hread, houtcome⟩ := Session.exists_isReadOff config keys hend hbound
      exact ⟨chain, hread, hread.isNearest hbound, houtcome⟩
  · intro run hrun
    have hincomplete : ¬session.IsComplete runs := by
      rw [hcomplete, ← firstOverflow?_eq_none_iff, hrun]
      simp
    rw [hanswers.outcome_of_not_isComplete hincomplete, hrejected, hrun]
    rfl
  · intro hbound hend
    have hincomplete : ¬session.IsComplete runs := fun hall => hend (hcomplete.mp hall).1
    rw [hanswers.outcome_of_not_isComplete hincomplete, hrejected, firstOverflow?_eq_none_iff.mpr hbound]
    rfl

/-- The entry `07 - 1 / 4`, and one with a run of digits that is too large and an operator at the end. -/
theorem entered_outcome_mixed :
    let session := Session.entered {} [.operator .add, .digit 0, .digit 7, .operator .subtract,
      .operator .add, .digit 1, .operator .divide, .digit 4]
    let nines := List.replicate 309 (EntryKey.digit 9)
    let large := Session.entered {} (.digit 1 :: .operator .add :: nines ++ [.operator .add])
    (session.entry.text.EndsInDigit ∧
      (∀ run ∈ digitRuns session.entry.text, wholeValue run < overflowBound) ∧
      ∃ shown, session.outcome = .ok shown) ∧
    firstOverflow? (digitRuns large.entry.text) = some (List.replicate 309 '9') ∧
      large.outcome = .error (.malformed (List.replicate 309 '9')) := by
  intro session nines large
  have hend : session.entry.text.EndsInDigit := by decide +kernel
  have hbound : ∀ run ∈ digitRuns session.entry.text, wholeValue run < overflowBound :=
    firstOverflow?_eq_none_iff.mp (by decide +kernel)
  have hfirst : firstOverflow? (digitRuns large.entry.text) = some (List.replicate 309 '9') := by
    decide +kernel
  have hshown := ((entered_outcome {} _).1 hend).1.mpr hbound
  exact ⟨⟨hend, hbound, hshown⟩, hfirst, (entered_outcome {} _).2.1 _ hfirst⟩

end FourFunction
