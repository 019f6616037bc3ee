import FourFunction.Proofs.SessionLine

/-!
# What a run shows

The observations of a run are, for each press, the entry that it leaves and the outcome if it is equals.
They depend on the configuration and the entry that the run starts from, and never on the result field.
So a press that leaves the entry as it was can be taken out of a run, and nothing else that the run shows
changes. A failed equals is such a press, and where results are not entered again every equals is one.
-/

namespace FourFunction

/-! ### Observations -/

/-- The outcome of a press, if it is equals, and the entry that it leaves. -/
structure Observation where
  outcome : Option (Except CalculationError Text)
  entry : Entry
  deriving DecidableEq

def Observation.isFailure (observation : Observation) : Bool :=
  match observation.outcome with
  | some (.error _) => true
  | _ => false

namespace Session

def observe (session : Session) (action : Action) : Observation :=
  ⟨if action = .equals then some session.outcome else none, (session.press action).entry⟩

/-- What a run shows, press by press. -/
def observations (session : Session) : List Action → List Observation
  | [] => []
  | action :: later => session.observe action :: (session.press action).observations later

/-- Whether the press at the position of a run is an equals that fails. -/
def failsAt (session : Session) (actions : List Action) (position : Nat) : Bool :=
  (session.observations actions)[position]?.any Observation.isFailure

theorem getElem?_observations (session : Session) (actions : List Action) (position : Nat) :
    (session.observations actions)[position]? =
      actions[position]?.map (session.pressAll (actions.take position)).observe := by
  induction actions generalizing session position with
  | nil => rfl
  | cons action later ih =>
    cases position with
    | zero => rfl
    | succ position =>
      rw [observations, List.getElem?_cons_succ, List.getElem?_cons_succ, ih, List.take_succ_cons]
      rfl

theorem isFailure_observe_iff (session : Session) (action : Action) :
    (session.observe action).isFailure = true ↔
      action = .equals ∧ ∃ error, session.outcome = .error error := by
  rw [observe, Observation.isFailure]
  by_cases hequals : action = .equals
  · cases houtcome : session.outcome <;> simp [hequals]
  · simp [hequals]

/-! ### Presses that leave the entry -/

/-- Whether the press at the position of a run leaves the entry as it was. -/
def IsIdleAt (session : Session) (actions : List Action) (position : Nat) : Prop :=
  ∀ action ∈ actions[position]?,
    ((session.pressAll (actions.take position)).press action).entry =
      (session.pressAll (actions.take position)).entry

theorem entry_equals_of_not_reenter {session : Session} (hreenter : session.config.reenterResult = false) :
    session.equals.entry = session.entry := by
  cases houtcome : session.outcome with
  | error error => rw [equals_of_error houtcome]
  | ok shown => rw [equals_of_ok houtcome, hreenter, if_neg Bool.false_ne_true]

theorem isIdleAt_of_failsAt {session : Session} {actions : List Action} {position : Nat}
    (hfails : session.failsAt actions position = true) : session.IsIdleAt actions position := by
  intro action haction
  rw [failsAt, getElem?_observations, Option.mem_def.mp haction] at hfails
  obtain ⟨rfl, error, herror⟩ := (isFailure_observe_iff _ action).mp hfails
  rw [press, equals_of_error herror]

theorem isIdleAt_equals {session : Session} {actions : List Action} {position : Nat}
    (hreenter : session.config.reenterResult = false) (hequals : actions[position]? = some .equals) :
    session.IsIdleAt actions position := by
  intro action haction
  obtain rfl : Action.equals = action := Option.some.inj (hequals.symm.trans haction)
  apply entry_equals_of_not_reenter
  rw [config_pressAll, hreenter]

/-! ### Runs from sessions that differ in the result field -/

/-- Equal but for the result field. -/
def IsAlike (left right : Session) : Prop :=
  left.config = right.config ∧ left.entry = right.entry

variable {left right : Session}

theorem IsAlike.trans {middle : Session} (hleft : left.IsAlike middle) (hright : middle.IsAlike right) :
    left.IsAlike right :=
  ⟨hleft.1.trans hright.1, hleft.2.trans hright.2⟩

theorem IsAlike.outcome_eq (halike : left.IsAlike right) : left.outcome = right.outcome := by
  rw [outcome, outcome, halike.1, halike.2]

theorem IsAlike.press (halike : left.IsAlike right) (action : Action) :
    (left.press action).IsAlike (right.press action) := by
  have houtcome := halike.outcome_eq
  obtain ⟨hconfig, hentry⟩ := halike
  refine ⟨by rw [config_press, config_press, hconfig], ?_⟩
  cases action with
  | digit value => exact congrArg (Entry.pushDigit · value) hentry
  | operator op => exact congrArg (Entry.pushOperator · op) hentry
  | equals =>
    rw [Session.press, Session.press, equals, equals, ← houtcome, hconfig, hentry]
  | clear => rfl
  | backspace => exact congrArg Entry.backspace hentry

theorem IsAlike.observe_eq (halike : left.IsAlike right) (action : Action) :
    left.observe action = right.observe action := by
  rw [observe, observe, halike.outcome_eq, (halike.press action).2]

end Session

/-! ### Runs without some of their presses -/

/-- The items at the positions that are not removed. -/
def without {β : Type} (removed : Nat → Bool) (items : List β) : List β :=
  (items.zipIdx.filter fun item => !removed item.2).map Prod.fst

theorem without_cons {β : Type} (removed : Nat → Bool) (item : β) (items : List β) :
    without removed (item :: items) =
      if removed 0 then without (fun position => removed (position + 1)) items
      else item :: without (fun position => removed (position + 1)) items := by
  have hshift : (items.zipIdx 1).filter (fun item => !removed item.2) =
      (items.zipIdx.filter fun item => !removed (item.2 + 1)).map (Prod.map id (· + 1)) := by
    rw [List.zipIdx_succ, List.filter_map]
    rfl
  rw [without, List.zipIdx_cons, List.filter_cons]
  cases hremoved : removed 0 <;> simp [hshift, without]

namespace Session

theorem IsAlike.observations_without {session other : Session} (halike : session.IsAlike other)
    {actions : List Action} {removed : Nat → Bool}
    (hidle : ∀ position, removed position = true → session.IsIdleAt actions position) :
    other.observations (without removed actions) = without removed (session.observations actions) := by
  induction actions generalizing session other removed with
  | nil => rfl
  | cons action later ih =>
    have hlater : ∀ position, removed (position + 1) = true →
        (session.press action).IsIdleAt later position :=
      fun position hremoved => hidle (position + 1) hremoved
    rw [observations, without_cons, without_cons]
    cases hremoved : removed 0 with
    | true =>
      -- The run that goes on without the press stays at an entry that the press has not changed.
      have hentry : (session.press action).entry = session.entry := hidle 0 hremoved action rfl
      have hnext : (session.press action).IsAlike other :=
        ⟨(config_press session action).trans halike.1, hentry.trans halike.2⟩
      exact ih hnext hlater
    | false =>
      rw [if_neg Bool.false_ne_true, if_neg Bool.false_ne_true, observations,
        ← halike.observe_eq action, ih (halike.press action) hlater]

theorem observations_without (session : Session) {actions : List Action} {removed : Nat → Bool}
    (hidle : ∀ position, removed position = true → session.IsIdleAt actions position) :
    session.observations (without removed actions) = without removed (session.observations actions) :=
  IsAlike.observations_without ⟨rfl, rfl⟩ hidle

end Session

/-- A run without its failed equals shows what the run shows at the presses that remain, and so does, if
results are not entered again, a run without any of its equals. -/
theorem failures_transparent (config : Config) (actions : List Action) :
    let session := Session.start config
    let failed := session.failsAt actions
    session.observations (without failed actions) = without failed (session.observations actions) ∧
    (config.reenterResult = false → ∀ removed : Nat → Bool,
      (∀ position, removed position = true → actions[position]? = some .equals) →
        session.observations (without removed actions) =
          without removed (session.observations actions)) := by
  intro session failed
  constructor
  · exact session.observations_without fun position hfails => Session.isIdleAt_of_failsAt hfails
  · intro hreenter removed hequals
    apply session.observations_without
    intro position hremoved
    exact Session.isIdleAt_equals hreenter (hequals position hremoved)

/-- Equals behind the operator of `5 + 3` fails, and equals behind `5 + 3` does not. -/
theorem failures_transparent_removed :
    let config : Config := { format := .compact, reenterResult := false }
    let session := Session.start config
    let actions : List Action := [.digit 5, .operator .add, .equals, .digit 3, .equals, .equals]
    let removed (position : Nat) : Bool := position == 2 || position == 4
    session.failsAt actions 2 = true ∧ session.failsAt actions 4 = false ∧
      config.reenterResult = false ∧
      (∀ position, removed position = true → actions[position]? = some .equals) ∧
      without removed actions = [.digit 5, .operator .add, .digit 3, .equals] ∧
      session.observations (without removed actions) = without removed (session.observations actions) := by
  intro config session actions removed
  have hequals : ∀ position, removed position = true → actions[position]? = some .equals := by
    intro position hremoved
    simp only [removed, Bool.or_eq_true, beq_iff_eq] at hremoved
    rcases hremoved with rfl | rfl <;> rfl
  exact ⟨by decide +kernel, by decide +kernel, rfl, hequals, by decide,
    (failures_transparent config actions).2 rfl removed hequals⟩

end FourFunction
