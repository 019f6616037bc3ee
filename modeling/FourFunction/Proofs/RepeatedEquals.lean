import FourFunction.Proofs.DisplayReading
import FourFunction.Proofs.SessionLine
import FourFunction.Proofs.TwoTier

/-!
# Equals, pressed twice

A finite result that is entered again has the same display as before, so equals changes nothing the
second time. A result that is not finite is no numeral: entered again, it is an error that names it.
-/

namespace FourFunction

open Text

/-! ### Calculating one lexeme -/

theorem calculate_of_finiteValue? {lexeme : Text} {value : Binary64} (hvisible : lexeme.AreVisible)
    (hvalue : Token.finiteValue? lexeme = some value) : calculate lexeme = .ok value := by
  let chain : Chain Binary64 := ⟨⟨lexeme, value⟩, []⟩
  have hspelled : chain.IsSpelledBy lexeme := by
    refine ⟨Lexeme.split_of_areVisible hvisible, ?_⟩
    intro operand hoperand
    obtain rfl := List.mem_singleton.mp hoperand
    exact hvalue
  exact Chain.calculate_of_isSpelledBy hspelled

theorem calculate_of_not_accepts {lexeme : Text} (hvisible : lexeme.AreVisible)
    (hrejected : Token.accepts lexeme = false) : calculate lexeme = .error (.malformed lexeme) := by
  apply calculate_of_firstRejected?
  rw [Lexeme.split_of_areVisible hvisible, Token.firstRejected?_cons, hrejected]
  rfl

namespace Binary64

theorem areVisible_display (format : DisplayFormat) (value : Binary64) : (value.display format).AreVisible :=
  (isOperand_display format value).1

theorem accepts_display_of_not_finite (format : DisplayFormat) {value : Binary64}
    (hinfinite : value.isFinite = false) : Token.accepts (value.display format) = false := by
  cases value with
  | nan =>
    have hnan : Token.accepts nanText = false := by decide
    exact hnan
  | infinite negative =>
    have hinfinity : ∀ negative, Token.accepts (signed negative infinityText) = false := by decide
    exact hinfinity negative
  | finite negative rank hrank => cases hinfinite

end Binary64

/-! ### Sessions -/

namespace Session

variable {session : Session} {value : Binary64}

theorem outcome_of_calculate (hvalue : calculate session.entry.text = .ok value) :
    session.outcome = .ok (value.display session.config.format) :=
  shownValue_of_calculate hvalue

theorem outcome_equals_of_finite (hvalue : calculate session.entry.text = .ok value)
    (hfinite : value.isFinite = true) :
    session.equals.outcome = .ok (value.display session.config.format) := by
  have houtcome := outcome_of_calculate hvalue
  rw [equals_of_ok houtcome]
  cases hreenter : session.config.reenterResult with
  | false => exact houtcome
  | true =>
    obtain ⟨again, _, hread, hsame⟩ := Binary64.exists_finiteValue?_display session.config.format hfinite
    have hagain := calculate_of_finiteValue? (Binary64.areVisible_display _ _) hread
    have hshown : shownValue session.config _ = .ok (again.display session.config.format) :=
      shownValue_of_calculate hagain
    rw [hsame] at hshown
    exact hshown

theorem equals_equals_of_finite (hvalue : calculate session.entry.text = .ok value)
    (hfinite : value.isFinite = true) : session.equals.equals = session.equals := by
  rw [equals_of_ok (outcome_equals_of_finite hvalue hfinite), equals_of_ok (outcome_of_calculate hvalue)]
  cases session.config.reenterResult <;> rfl

theorem outcome_equals_of_not_finite (hvalue : calculate session.entry.text = .ok value)
    (hinfinite : value.isFinite = false) (hreenter : session.config.reenterResult = true) :
    session.equals.outcome = .error (.malformed (value.display session.config.format)) := by
  have hrejected := Binary64.accepts_display_of_not_finite session.config.format hinfinite
  have hmalformed := calculate_of_not_accepts (Binary64.areVisible_display _ _) hrejected
  rw [equals_of_ok (outcome_of_calculate hvalue), if_pos hreenter, outcome, shownValue, hmalformed]
  rfl

end Session

/-- What is shown of a finite number is read as a number with the same display. So a second equals
answers as the first and leaves the session as it is, and where the result was not finite and has been
entered again, it is an error that names the result and leaves it entered. -/
theorem repeated_equals :
    (∀ (format : DisplayFormat) (value : Binary64), value.isFinite = true →
      ∃ again : Binary64, again.isFinite = true ∧
        Token.ofLexeme (value.display format) = .ok (.number (value.display format) again) ∧
        again.display format = value.display format) ∧
    ∀ (session : Session) (value : Binary64), calculate session.entry.text = .ok value →
      let shown := value.display session.config.format
      session.outcome = .ok shown ∧
      (value.isFinite = true → session.equals.outcome = .ok shown ∧ session.equals.equals = session.equals) ∧
      (value.isFinite = false → session.config.reenterResult = true →
        session.equals.outcome = .error (.malformed shown) ∧
        session.equals.equals = ⟨session.config, ⟨shown⟩, some session.config.errorIndicator⟩) := by
  constructor
  · intro format value hfinite
    obtain ⟨again, hagain, hread, hsame⟩ := Binary64.exists_finiteValue?_display format hfinite
    exact ⟨again, hagain, Token.ofLexeme_of_finiteValue? hread, hsame⟩
  · intro session value hvalue shown
    refine ⟨Session.outcome_of_calculate hvalue, ?_, ?_⟩
    · intro hfinite
      exact ⟨Session.outcome_equals_of_finite hvalue hfinite, Session.equals_equals_of_finite hvalue hfinite⟩
    · intro hinfinite hreenter
      have hmalformed := Session.outcome_equals_of_not_finite hvalue hinfinite hreenter
      refine ⟨hmalformed, ?_⟩
      rw [Session.equals_of_error hmalformed, Session.equals_of_ok (Session.outcome_of_calculate hvalue),
        if_pos hreenter]

/-- One third in the compact display, which is not the number that is read, and a quotient by zero. -/
theorem repeated_equals_quotients :
    let number (lexeme : Text) : Binary64 := (Token.finiteValue? lexeme).getD .nan
    let quotient := (number ['1']).div (number ['3'])
    let third : Session := (Session.start { format := .compact }).pressAll
      [.digit 1, .operator .divide, .digit 3]
    let infinite : Session := (Session.start {}).pressAll [.digit 5, .operator .divide, .digit 0]
    (calculate third.entry.text = .ok quotient ∧ quotient.isFinite = true ∧
      third.equals.entry.text = "0.3333333333".toList ∧ third.equals.equals = third.equals) ∧
    (calculate infinite.entry.text = .ok (.infinite false) ∧ infinite.config.reenterResult = true ∧
      infinite.equals.outcome = .error (.malformed "Infinity".toList)) := by
  intro number quotient third infinite
  have hthird : calculate third.entry.text = .ok quotient := by decide +kernel
  have hfinite : quotient.isFinite = true := by decide +kernel
  have hentry : third.equals.entry.text = "0.3333333333".toList := by decide +kernel
  have hinfinite : calculate infinite.entry.text = .ok (.infinite false) := by decide +kernel
  have hreenter : infinite.config.reenterResult = true := by decide +kernel
  obtain ⟨_, hsame, _⟩ := repeated_equals.2 third quotient hthird
  obtain ⟨_, _, hmalformed⟩ := repeated_equals.2 infinite _ hinfinite
  exact ⟨⟨hthird, hfinite, hentry, (hsame hfinite).2⟩, hinfinite, hreenter, (hmalformed rfl hreenter).1⟩

end FourFunction
