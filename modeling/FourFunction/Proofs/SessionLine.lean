import Mathlib.Data.List.Induction
import FourFunction.Proofs.EntryLine
import FourFunction.Session

/-!
# The line of a session

The entry of a session is the text of a line after any presses. `Line.Step` says what each action can
make of the line, and a property of lines that every step keeps is one of the line of every session.
-/

namespace FourFunction

open Text

/-! ### Steps of a line -/

namespace Line

def empty : Line :=
  ⟨[], [], none⟩

/-- What an action can make of a line. Equals either leaves it or puts the display of a value in its
place. -/
inductive Step (format : DisplayFormat) (line : Line) : Action → Line → Prop
  | digit (value : UInt8) (hvalue : value ≤ 9) :
      Step format line (.digit value) (line.pushDigit (Nat.digitChar value.toNat))
  | refused (value : UInt8) (hvalue : ¬value ≤ 9) : Step format line (.digit value) line
  | operator (op : Operator) : Step format line (.operator op) (line.pushOperator op)
  | reentered (value : Binary64) : Step format line .equals ⟨value.display format, [], none⟩
  | held : Step format line .equals line
  | clear : Step format line .clear empty
  | backspace : Step format line .backspace line.backspace

variable {format : DisplayFormat} {line next : Line} {action : Action}

theorem isValid_empty : empty.IsValid :=
  ⟨by decide, by simp [empty], fun _ => ⟨rfl, rfl⟩⟩

theorem isDigit_digitChar {value : UInt8} (hvalue : value ≤ 9) :
    (Nat.digitChar value.toNat).isDigit = true := by
  have hbound : value.toNat ≤ 9 := UInt8.le_iff_toNat_le.mp hvalue
  rw [Nat.isDigit_digitChar, decide_eq_true_eq]
  omega

theorem Step.isValid (hstep : Step format line action next) (hvalid : line.IsValid) : next.IsValid := by
  cases hstep with
  | digit value hvalue => exact isValid_pushDigit hvalid (isDigit_digitChar hvalue)
  | refused => exact hvalid
  | operator op => exact isValid_pushOperator hvalid op
  | reentered value =>
    exact ⟨(Binary64.isOperand_display format value).1, by simp, fun _ => ⟨rfl, rfl⟩⟩
  | held => exact hvalid
  | clear => exact isValid_empty
  | backspace => exact isValid_backspace hvalid

end Line

/-! ### Presses -/

namespace Session

theorem outcome_eq_ok_iff {session : Session} {shown : Text} :
    session.outcome = .ok shown ↔
      ∃ value, calculate session.entry.text = .ok value ∧
        shown = value.display session.config.format := by
  rw [outcome, shownValue]
  cases calculate session.entry.text with
  | error error => simp [Except.map]
  | ok value => simp [Except.map, eq_comm]

theorem equals_of_ok {session : Session} {shown : Text} (houtcome : session.outcome = .ok shown) :
    session.equals =
      ⟨session.config, if session.config.reenterResult then ⟨shown⟩ else session.entry, some shown⟩ := by
  rw [equals, houtcome]

theorem equals_of_error {session : Session} {error : CalculationError}
    (houtcome : session.outcome = .error error) :
    session.equals = ⟨session.config, session.entry, some session.config.errorIndicator⟩ := by
  rw [equals, houtcome]

theorem config_press (session : Session) (action : Action) :
    (session.press action).config = session.config := by
  cases action with
  | equals =>
    rw [press, equals]
    cases session.outcome <;> rfl
  | _ => rfl

theorem pressAll_append (session : Session) (first second : List Action) :
    session.pressAll (first ++ second) = (session.pressAll first).pressAll second :=
  List.foldl_append ..

theorem pressAll_concat (session : Session) (actions : List Action) (action : Action) :
    session.pressAll (actions ++ [action]) = (session.pressAll actions).press action :=
  pressAll_append session actions [action]

theorem config_pressAll (session : Session) (actions : List Action) :
    (session.pressAll actions).config = session.config := by
  induction actions using List.reverseRecOn with
  | nil => rfl
  | append_singleton actions action ih => rw [pressAll_concat, config_press, ih]

theorem exists_step_press {session : Session} {line : Line} (hvalid : line.IsValid)
    (hentry : session.entry = ⟨line.text⟩) (action : Action) :
    ∃ next, Line.Step session.config.format line action next ∧
      (session.press action).entry = ⟨next.text⟩ := by
  cases action with
  | digit value =>
    by_cases hvalue : value ≤ 9
    · refine ⟨_, .digit value hvalue, ?_⟩
      simp [press, Entry.pushDigit, Entry.pushDigit?, hvalue, hentry, Line.text_pushDigit]
    · refine ⟨line, .refused value hvalue, ?_⟩
      simp [press, Entry.pushDigit, Entry.pushDigit?, hvalue, hentry]
  | operator op =>
    refine ⟨_, .operator op, ?_⟩
    rw [press, hentry]
    exact Line.pushOperator_text hvalid op
  | equals =>
    cases houtcome : session.outcome with
    | error error =>
      refine ⟨line, .held, ?_⟩
      rw [press, equals, houtcome]
      exact hentry
    | ok shown =>
      by_cases hreenter : session.config.reenterResult = true
      · obtain ⟨value, _, hshown⟩ := outcome_eq_ok_iff.mp houtcome
        refine ⟨_, .reentered value, ?_⟩
        simp [press, equals, houtcome, hreenter, hshown, Line.text, Line.body, Line.trailingText,
          Segment.textOf]
      · refine ⟨line, .held, ?_⟩
        simp [press, equals, houtcome, hreenter, hentry]
  | clear => exact ⟨.empty, .clear, rfl⟩
  | backspace =>
    refine ⟨_, .backspace, ?_⟩
    rw [press, hentry]
    exact Line.backspace_text hvalid

/-- What the empty line has and every step keeps, the line of a session has. -/
theorem exists_line_pressAll (config : Config) (actions : List Action) {kept : Line → Prop}
    (hvalid : ∀ line, kept line → line.IsValid) (hempty : kept .empty)
    (hstep : ∀ action ∈ actions, ∀ line next,
      kept line → Line.Step config.format line action next → kept next) :
    ∃ line, kept line ∧ ((start config).pressAll actions).entry = ⟨line.text⟩ := by
  induction actions using List.reverseRecOn with
  | nil => exact ⟨.empty, hempty, rfl⟩
  | append_singleton actions action ih =>
    have hearlier : ∀ earlier ∈ actions, ∀ line next,
        kept line → Line.Step config.format line earlier next → kept next :=
      fun earlier hmem => hstep earlier (List.mem_append_left _ hmem)
    obtain ⟨line, hkept, hentry⟩ := ih hearlier
    obtain ⟨next, hnext, htext⟩ := exists_step_press (hvalid line hkept) hentry action
    rw [config_pressAll] at hnext
    refine ⟨next, hstep action (by simp) line next hkept hnext, ?_⟩
    rw [pressAll_concat, htext]

theorem exists_valid_line_pressAll (config : Config) (actions : List Action) :
    ∃ line : Line, line.IsValid ∧ ((start config).pressAll actions).entry = ⟨line.text⟩ :=
  exists_line_pressAll config actions (fun _ hvalid => hvalid) Line.isValid_empty
    fun _ _ _ _ hvalid hnext => hnext.isValid hvalid

end Session

end FourFunction
