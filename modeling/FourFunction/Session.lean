import FourFunction.Config
import FourFunction.Entry
import FourFunction.Expression.Calculation
import FourFunction.Keypad

/-!
# Sessions

A calculator at work: its entry, the result field, and a configuration that stays as it is. Only equals
calculates. It fills the result field, with the shown value or with the error indicator, and a shown
value may become the next entry; a failure leaves the entry to be corrected.
-/

namespace FourFunction

/-- The shown value of an expression. -/
def shownValue (config : Config) (text : Text) : Except CalculationError Text :=
  (calculate text).map (Binary64.display config.format)

structure Session where
  config : Config
  entry : Entry
  /-- Empty until the first equals, and again after a clear. -/
  result : Option Text
  deriving DecidableEq

namespace Session

def start (config : Config) : Session :=
  ⟨config, .empty, none⟩

/-- What equals answers. -/
def outcome (session : Session) : Except CalculationError Text :=
  shownValue session.config session.entry.text

def equals (session : Session) : Session :=
  match session.outcome with
  | .ok shown =>
    { session with
      result := some shown
      entry := if session.config.reenterResult then ⟨shown⟩ else session.entry }
  | .error _ => { session with result := some session.config.errorIndicator }

def press (session : Session) : Action → Session
  | .digit value => { session with entry := session.entry.pushDigit value }
  | .operator op => { session with entry := session.entry.pushOperator op }
  | .equals => session.equals
  | .clear => start session.config
  | .backspace => { session with entry := session.entry.backspace }

def pressAll (session : Session) (actions : List Action) : Session :=
  actions.foldl press session

/-- The text of the result field. -/
def resultText (session : Session) : Text :=
  session.result.getD []

end Session

end FourFunction
