import FourFunction.Proofs.Observations
import FourFunction.Proofs.ResultField

/-!
# The text of the error indicator

What is shown in place of a result after an error can be any text, a numeral or an operator too, and the
result field alone does not tell whether it holds that text or a result. Yet nothing that is calculated
depends on it: no press takes anything from the result field, so two calculators that differ in the
indicator alone go through the same presses with the same entries and the same outcomes. Their result
fields differ at most while they tell of a failure.
-/

namespace FourFunction

namespace Session

/-! ### A session with another indicator -/

def withIndicator (session : Session) (indicator : Text) : Session :=
  { session with config := { session.config with errorIndicator := indicator } }

theorem outcome_withIndicator (session : Session) (indicator : Text) :
    (session.withIndicator indicator).outcome = session.outcome :=
  rfl

/-- Only the result field can tell whether the indicator was changed before a press or behind it. -/
theorem press_withIndicator (session : Session) (indicator : Text) (action : Action) :
    ((session.withIndicator indicator).press action).IsAlike
      ((session.press action).withIndicator indicator) := by
  constructor
  · rw [config_press, withIndicator, withIndicator, config_press]
  · cases action with
    | equals =>
      rw [press, press, equals, equals, outcome_withIndicator]
      cases session.outcome <;> rfl
    | _ => rfl

theorem pressAll_withIndicator (session : Session) (indicator : Text) (actions : List Action) :
    ((session.withIndicator indicator).pressAll actions).IsAlike
      ((session.pressAll actions).withIndicator indicator) := by
  induction actions using List.reverseRecOn with
  | nil => exact ⟨rfl, rfl⟩
  | append_singleton actions action ih =>
    rw [pressAll_concat, pressAll_concat]
    exact (ih.press action).trans (press_withIndicator _ indicator action)

theorem outcome_pressAll_withIndicator (session : Session) (indicator : Text) (actions : List Action) :
    ((session.withIndicator indicator).pressAll actions).outcome = (session.pressAll actions).outcome :=
  (pressAll_withIndicator session indicator actions).outcome_eq

theorem observe_withIndicator (session : Session) (indicator : Text) (action : Action) :
    (session.withIndicator indicator).observe action = session.observe action := by
  rw [observe, observe, outcome_withIndicator, (press_withIndicator session indicator action).2]
  rfl

theorem observations_withIndicator (session : Session) (indicator : Text) (actions : List Action) :
    (session.withIndicator indicator).observations actions = session.observations actions := by
  refine List.ext_getElem? fun position => ?_
  have hobserve : ((session.withIndicator indicator).pressAll (actions.take position)).observe =
      (session.pressAll (actions.take position)).observe := by
    funext action
    rw [(pressAll_withIndicator session indicator _).observe_eq, observe_withIndicator]
  rw [getElem?_observations, getElem?_observations, hobserve]

/-! ### The result field -/

variable (config : Config) (indicator : Text) {actions : List Action}

theorem start_withIndicator :
    start { config with errorIndicator := indicator } = (start config).withIndicator indicator :=
  rfl

theorem lastFailed_withIndicator_iff :
    LastFailed { config with errorIndicator := indicator } actions ↔ LastFailed config actions := by
  simp only [LastFailed, start_withIndicator, outcome_pressAll_withIndicator]

theorem result_withIndicator_of_not_lastFailed (hnever : ¬LastFailed config actions) :
    ((start { config with errorIndicator := indicator }).pressAll actions).result =
      ((start config).pressAll actions).result := by
  by_cases hasked : ∃ earlier, LastEquals earlier actions
  · obtain ⟨earlier, hlast⟩ := hasked
    rw [result_of_lastEquals _ hlast, result_of_lastEquals _ hlast]
    cases houtcome : ((start config).pressAll earlier).outcome with
    | error error => exact absurd ⟨earlier, error, hlast, houtcome⟩ hnever
    | ok shown =>
      have hsame := outcome_pressAll_withIndicator (start config) indicator earlier
      rw [start_withIndicator, answer_of_ok houtcome, answer_of_ok (hsame.trans houtcome)]
  · rw [result_of_not_lastEquals _ hasked, result_of_not_lastEquals _ hasked]

end Session

open Session

/-- Calculators that differ in the error indicator alone show the same entry after every press and the same
outcome of every equals. If the last equals failed and no clear came since, each has its own indicator in
the result field, and in all other cases the two fields are the same. -/
theorem error_indicator_inert (left right : Config)
    (hsame : { left with errorIndicator := right.errorIndicator } = right) (actions : List Action) :
    (start left).observations actions = (start right).observations actions ∧
    (LastFailed left actions →
      ((start left).pressAll actions).result = some left.errorIndicator ∧
        ((start right).pressAll actions).result = some right.errorIndicator) ∧
    (¬LastFailed left actions →
      ((start left).pressAll actions).result = ((start right).pressAll actions).result) := by
  rw [← hsame]
  refine ⟨?_, ?_, ?_⟩
  · exact (observations_withIndicator (start left) right.errorIndicator actions).symm
  · intro hfailed
    have hother := (lastFailed_withIndicator_iff left right.errorIndicator).mpr hfailed
    exact ⟨result_of_lastFailed hfailed, result_of_lastFailed hother⟩
  · intro hnever
    exact (result_withIndicator_of_not_lastFailed left right.errorIndicator hnever).symm

/-- A numeral and a sum with its spaces as indicators: after `7 +`, which has no value, and after `7 + 3`. -/
theorem error_indicator_inert_numeral :
    let left : Config := { errorIndicator := "10.0".toList }
    let right : Config := { errorIndicator := "1 + 2".toList }
    let failing : List Action := [.digit 7, .operator .add, .equals]
    let corrected : List Action := failing ++ [.digit 3, .equals]
    { left with errorIndicator := right.errorIndicator } = right ∧
    LastFailed left failing ∧ ¬LastFailed left corrected ∧
    ((start left).pressAll failing).result = some "10.0".toList ∧
    ((start right).pressAll failing).result = some "1 + 2".toList ∧
    ((start left).pressAll corrected).result = ((start right).pressAll corrected).result ∧
    (start left).observations corrected = (start right).observations corrected := by
  intro left right failing corrected
  have hsame : { left with errorIndicator := right.errorIndicator } = right := rfl
  have hfailed : LastFailed left failing :=
    ⟨[.digit 7, .operator .add], .malformed [], ⟨[], rfl, by decide, by decide⟩, by decide +kernel⟩
  have hnever : ¬LastFailed left corrected := by
    rintro ⟨earlier, error, hlast, herror⟩
    have hother : LastEquals (failing ++ [.digit 3]) corrected := ⟨[], rfl, by decide, by decide⟩
    rw [hlast.unique hother] at herror
    have hshown : ((start left).pressAll (failing ++ [.digit 3])).outcome = .ok "10.0".toList := by
      decide +kernel
    rw [hshown] at herror
    cases herror
  obtain ⟨hleft, hright⟩ := (error_indicator_inert left right hsame failing).2.1 hfailed
  obtain ⟨hobservations, _, hfields⟩ := error_indicator_inert left right hsame corrected
  exact ⟨hsame, hfailed, hnever, hleft, hright, hfields hnever, hobservations⟩

end FourFunction
