import FourFunction.Proofs.DisplayReading
import FourFunction.Proofs.SessionLine

/-!
# The result field

What the result field has to do with the presses before it. It is empty until equals is pressed and
again after a clear; else it holds what the last equals answered for the entry of that time, whatever
became of the entry since. A shown number is never the error indicator that a calculator has by default,
so that indicator stands for a failure.
-/

namespace FourFunction

/-! ### Shown numbers and the error indicator -/

/-- A finite number is shown as a numeral, and the indicator is none. -/
theorem Binary64.display_ne_errorIndicator (format : DisplayFormat) (value : Binary64) :
    value.display format ≠ ({} : Config).errorIndicator := by
  cases value with
  | nan => exact of_decide_eq_false rfl
  | infinite negative => cases negative <;> exact of_decide_eq_false rfl
  | finite negative rank hrank =>
    intro hsame
    have hfinite : (finite negative rank hrank).isFinite = true := rfl
    obtain ⟨again, _, hread, _⟩ := exists_finiteValue?_display format hfinite
    have hnone : Token.finiteValue? ({} : Config).errorIndicator = none := by decide
    rw [hsame, hnone] at hread
    cases hread

namespace Session

/-! ### Presses and the result field -/

/-- What equals puts into the result field. -/
def answer (session : Session) : Text :=
  match session.outcome with
  | .ok shown => shown
  | .error _ => session.config.errorIndicator

theorem answer_of_ok {session : Session} {shown : Text} (houtcome : session.outcome = .ok shown) :
    session.answer = shown := by
  rw [answer, houtcome]

theorem answer_of_error {session : Session} {error : CalculationError}
    (houtcome : session.outcome = .error error) : session.answer = session.config.errorIndicator := by
  rw [answer, houtcome]

theorem result_press_equals (session : Session) :
    (session.press .equals).result = some session.answer := by
  rw [press, equals, answer]
  cases session.outcome <;> rfl

theorem result_press_of_ne (session : Session) {action : Action} (hequals : action ≠ .equals)
    (hclear : action ≠ .clear) : (session.press action).result = session.result := by
  cases action with
  | equals => exact absurd rfl hequals
  | clear => exact absurd rfl hclear
  | _ => rfl

theorem result_pressAll_of_notMem (session : Session) {actions : List Action}
    (hequals : .equals ∉ actions) (hclear : .clear ∉ actions) :
    (session.pressAll actions).result = session.result := by
  induction actions generalizing session with
  | nil => rfl
  | cons action actions ih =>
    obtain ⟨hequals, hequalsLater⟩ := not_or.mp (mt List.mem_cons.mpr hequals)
    obtain ⟨hclear, hclearLater⟩ := not_or.mp (mt List.mem_cons.mpr hclear)
    calc ((session.press action).pressAll actions).result = (session.press action).result :=
          ih _ hequalsLater hclearLater
      _ = session.result := result_press_of_ne session (Ne.symm hequals) (Ne.symm hclear)

theorem isSome_result_pressAll {session : Session} (hresult : session.result.isSome = true)
    {actions : List Action} (hclear : .clear ∉ actions) :
    (session.pressAll actions).result.isSome = true := by
  induction actions generalizing session with
  | nil => exact hresult
  | cons action actions ih =>
    obtain ⟨hclear, hclearLater⟩ := not_or.mp (mt List.mem_cons.mpr hclear)
    have hnext : (session.press action).result.isSome = true := by
      by_cases hequals : action = .equals
      · rw [hequals, result_press_equals, Option.isSome_some]
      · rwa [result_press_of_ne session hequals (Ne.symm hclear)]
    exact ih hnext hclearLater

/-! ### The last equals -/

/-- Equals was pressed behind the earlier presses, and neither equals nor clear since. -/
def LastEquals (earlier actions : List Action) : Prop :=
  ∃ since, actions = earlier ++ .equals :: since ∧ .equals ∉ since ∧ .clear ∉ since

theorem LastEquals.concat {earlier actions : List Action} {action : Action}
    (hlast : LastEquals earlier actions) (hequals : action ≠ .equals) (hclear : action ≠ .clear) :
    LastEquals earlier (actions ++ [action]) := by
  obtain ⟨since, rfl, hequalsSince, hclearSince⟩ := hlast
  refine ⟨since ++ [action], by simp, ?_, ?_⟩
  · simpa [hequalsSince] using Ne.symm hequals
  · simpa [hclearSince] using Ne.symm hclear

/-- The presses before the last equals are what is left, read from the end, behind the first equals. -/
theorem LastEquals.reverse_eq {earlier actions : List Action} (hlast : LastEquals earlier actions) :
    earlier.reverse = (actions.reverse.dropWhile (· ≠ .equals)).tail := by
  obtain ⟨since, rfl, hequals, _⟩ := hlast
  have hsince : ∀ action ∈ since.reverse, decide (action ≠ .equals) = true := by
    intro action haction
    rw [decide_eq_true_eq]
    rintro rfl
    exact hequals (List.mem_reverse.mp haction)
  rw [List.reverse_append, List.reverse_cons, List.append_assoc, List.dropWhile_append_of_pos hsince]
  rfl

theorem LastEquals.unique {earlier other actions : List Action} (hlast : LastEquals earlier actions)
    (hother : LastEquals other actions) : earlier = other :=
  List.reverse_injective (hlast.reverse_eq.trans hother.reverse_eq.symm)

theorem result_of_lastEquals (config : Config) {earlier actions : List Action}
    (hlast : LastEquals earlier actions) :
    ((start config).pressAll actions).result = some ((start config).pressAll earlier).answer := by
  obtain ⟨since, rfl, hequals, hclear⟩ := hlast
  rw [pressAll_append, ← result_press_equals]
  exact result_pressAll_of_notMem _ hequals hclear

theorem exists_lastEquals_of_result (config : Config) {actions : List Action}
    (hresult : ((start config).pressAll actions).result.isSome = true) :
    ∃ earlier, LastEquals earlier actions := by
  induction actions using List.reverseRecOn with
  | nil => cases hresult
  | append_singleton actions action ih =>
    rw [pressAll_concat] at hresult
    by_cases hequals : action = .equals
    · exact ⟨actions, [], by rw [hequals], by simp, by simp⟩
    · by_cases hclear : action = .clear
      · rw [hclear] at hresult
        cases hresult
      · rw [result_press_of_ne _ hequals hclear] at hresult
        obtain ⟨earlier, hlast⟩ := ih hresult
        exact ⟨earlier, hlast.concat hequals hclear⟩

theorem result_of_not_lastEquals (config : Config) {actions : List Action}
    (hnever : ¬∃ earlier, LastEquals earlier actions) : ((start config).pressAll actions).result = none :=
  Option.not_isSome_iff_eq_none.mp (mt (exists_lastEquals_of_result config) hnever)

/-- The field is empty just if a clear came after every equals. -/
theorem result_eq_none_iff (config : Config) (actions : List Action) :
    ((start config).pressAll actions).result = none ↔
      ∀ earlier since, actions = earlier ++ .equals :: since → .clear ∈ since := by
  constructor
  · rintro hnone earlier since rfl
    by_contra hclear
    let asked := (start config).pressAll earlier
    have hasked : (asked.press .equals).result.isSome = true := by
      rw [result_press_equals, Option.isSome_some]
    have hsome : ((asked.press .equals).pressAll since).result.isSome = true :=
      isSome_result_pressAll hasked hclear
    rw [pressAll_append] at hnone
    exact Option.isSome_iff_ne_none.mp hsome hnone
  · intro hcleared
    by_contra hsome
    obtain ⟨earlier, since, hactions, _, hclear⟩ :=
      exists_lastEquals_of_result config (Option.isSome_iff_ne_none.mpr hsome)
    exact hclear (hcleared earlier since hactions)

/-! ### The last equals, if it failed -/

/-- The last equals failed, and no clear came since. -/
def LastFailed (config : Config) (actions : List Action) : Prop :=
  ∃ earlier error, LastEquals earlier actions ∧
    ((start config).pressAll earlier).outcome = .error error

theorem result_of_lastFailed {config : Config} {actions : List Action}
    (hfailed : LastFailed config actions) :
    ((start config).pressAll actions).result = some config.errorIndicator := by
  obtain ⟨earlier, error, hlast, herror⟩ := hfailed
  rw [result_of_lastEquals config hlast, answer_of_error herror, config_pressAll, start]

/-- Every answer that is the default indicator is the answer of a failure. -/
theorem answer_eq_errorIndicator_iff {session : Session}
    (hindicator : session.config.errorIndicator = ({} : Config).errorIndicator) :
    session.answer = ({} : Config).errorIndicator ↔ ∃ error, session.outcome = .error error := by
  cases houtcome : session.outcome with
  | error error => simp [answer_of_error houtcome, hindicator]
  | ok shown =>
    obtain ⟨value, _, rfl⟩ := outcome_eq_ok_iff.mp houtcome
    rw [answer_of_ok houtcome]
    exact iff_of_false (Binary64.display_ne_errorIndicator _ value) (by simp)

theorem result_eq_errorIndicator_iff {config : Config}
    (hindicator : config.errorIndicator = ({} : Config).errorIndicator) (actions : List Action) :
    ((start config).pressAll actions).result = some ({} : Config).errorIndicator ↔
      LastFailed config actions := by
  constructor
  · intro hresult
    obtain ⟨earlier, hlast⟩ := exists_lastEquals_of_result config (Option.isSome_of_eq_some hresult)
    rw [result_of_lastEquals config hlast] at hresult
    have hasked : ((start config).pressAll earlier).config.errorIndicator =
        ({} : Config).errorIndicator := by
      rw [config_pressAll]
      exact hindicator
    obtain ⟨error, herror⟩ := (answer_eq_errorIndicator_iff hasked).mp (Option.some.inj hresult)
    exact ⟨earlier, error, hlast, herror⟩
  · intro hfailed
    rw [result_of_lastFailed hfailed, hindicator]

end Session

open Session

/-- The result field is empty just if a clear came after every equals, and else it tells how the last
equals went, which entered the shown value or left the entry. No other press touches the field, a clear
starts over, and the default indicator is seen just if the last equals failed. -/
theorem result_field_history (config : Config) (actions : List Action) :
    let session := (start config).pressAll actions
    (session.result = none ↔
      ∀ earlier since, actions = earlier ++ .equals :: since → .clear ∈ since) ∧
    (∀ earlier, LastEquals earlier actions →
      let asked := (start config).pressAll earlier
      (∀ shown, shownValue config asked.entry.text = .ok shown →
        session.result = some shown ∧
          (asked.press .equals).entry = if config.reenterResult then ⟨shown⟩ else asked.entry) ∧
      ∀ error, shownValue config asked.entry.text = .error error →
        session.result = some config.errorIndicator ∧ (asked.press .equals).entry = asked.entry) ∧
    (∀ action, (session.press action).config = config ∧
      (action ≠ .equals → action ≠ .clear → (session.press action).result = session.result)) ∧
    session.press .clear = start config ∧
    (config.errorIndicator = ({} : Config).errorIndicator →
      (session.result = some ['E', 'r', 'r', 'o', 'r'] ↔
        ∃ earlier error, LastEquals earlier actions ∧
          shownValue config ((start config).pressAll earlier).entry.text = .error error)) := by
  intro session
  have hconfig : ∀ earlier, ((start config).pressAll earlier).config = config :=
    fun earlier => config_pressAll (start config) earlier
  have houtcome : ∀ earlier, ((start config).pressAll earlier).outcome =
      shownValue config ((start config).pressAll earlier).entry.text := by
    intro earlier
    rw [outcome, hconfig]
  refine ⟨result_eq_none_iff config actions, ?_, ?_, ?_, ?_⟩
  · intro earlier hlast asked
    have hresult : session.result = some asked.answer := result_of_lastEquals config hlast
    rw [← houtcome earlier, hresult]
    constructor
    · intro shown hshown
      rw [answer_of_ok hshown, press, equals_of_ok hshown, hconfig]
      exact ⟨rfl, rfl⟩
    · intro error herror
      rw [answer_of_error herror, press, equals_of_error herror, hconfig]
      exact ⟨rfl, rfl⟩
  · intro action
    refine ⟨?_, result_press_of_ne session⟩
    rw [config_press]
    exact hconfig actions
  · rw [press]
    exact congrArg start (hconfig actions)
  · intro hindicator
    simp only [← houtcome]
    exact result_eq_errorIndicator_iff hindicator actions

/-- A failure after a clear with a digit behind the entry that it left, and a sum whose value was entered again
and then cut by a backspace. -/
theorem result_field_history_both :
    let failed : List Action := [.digit 1, .equals, .clear, .digit 5, .operator .add]
    let summed : List Action := [.digit 1, .operator .add, .digit 2]
    let afterFailure := (start {}).pressAll (failed ++ [.equals, .digit 3])
    let afterSum := (start {}).pressAll (summed ++ [.equals, .backspace])
    (LastEquals failed (failed ++ [.equals, .digit 3]) ∧
      shownValue {} ((start {}).pressAll failed).entry.text = .error (.malformed []) ∧
      afterFailure.result = some ['E', 'r', 'r', 'o', 'r'] ∧
      (((start {}).pressAll failed).press .equals).entry = ((start {}).pressAll failed).entry ∧
      afterFailure.press .clear = start {}) ∧
    LastEquals summed (summed ++ [.equals, .backspace]) ∧
      shownValue {} ((start {}).pressAll summed).entry.text = .ok ['3', '.', '0'] ∧
      afterSum.result = some ['3', '.', '0'] ∧
      (((start {}).pressAll summed).press .equals).entry = ⟨['3', '.', '0']⟩ := by
  intro failed summed afterFailure afterSum
  have hfailed : LastEquals failed (failed ++ [.equals, .digit 3]) := ⟨[.digit 3], rfl, by decide, by decide⟩
  have hsummed : LastEquals summed (summed ++ [.equals, .backspace]) := ⟨[.backspace], rfl, by decide, by decide⟩
  have herror : shownValue {} ((start {}).pressAll failed).entry.text = .error (.malformed []) := by
    decide +kernel
  have hshown : shownValue {} ((start {}).pressAll summed).entry.text = .ok ['3', '.', '0'] := by
    decide +kernel
  obtain ⟨_, hafterFailure, _, hcleared, _⟩ := result_field_history {} (failed ++ [.equals, .digit 3])
  obtain ⟨_, hafterSum, _⟩ := result_field_history {} (summed ++ [.equals, .backspace])
  obtain ⟨hindicator, hkept⟩ := (hafterFailure failed hfailed).2 _ herror
  obtain ⟨hresult, hentered⟩ := (hafterSum summed hsummed).1 _ hshown
  exact ⟨⟨hfailed, herror, hindicator, hkept, hcleared⟩, hsummed, hshown, hresult, hentered⟩

end FourFunction
