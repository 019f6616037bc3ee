import FourFunction.Proofs.Lexemes
import FourFunction.Proofs.SessionLine

/-!
# Results that are not finite

An infinity and NaN are shown as names, and a name can become the entry. Digits behind a name make no
numeral of it, and an operator goes behind it. So while only digits, operators and equals are pressed the
first lexeme of the entry stays the name with the digits that were pressed before an operator, and every
equals is an error that names this lexeme.
-/

namespace FourFunction

open Text

/-! ### Names -/

namespace Binary64

/-- What the infinities and NaN are shown as. -/
def names : List Text :=
  ["Infinity".toList, "-Infinity".toList, "NaN".toList]

theorem areVisible_name {name : Text} (hname : name ∈ names) : name.AreVisible := by
  have hnames : ∀ name ∈ names, name.AreVisible := by decide
  exact hnames name hname

theorem name_ne_nil {name : Text} (hname : name ∈ names) : name ≠ [] := by
  have hnames : ∀ name ∈ names, name ≠ [] := by decide
  exact hnames name hname

/-- Neither a capital letter nor a sign in front of one starts a numeral. -/
theorem not_accepts_name_append {name : Text} (hname : name ∈ names) (rest : Text) :
    Token.accepts (name ++ rest) = false := by
  simp only [names, List.mem_cons, List.not_mem_nil, or_false] at hname
  rcases hname with rfl | rfl | rfl <;> rfl

end Binary64

/-! ### The first lexeme of an entry -/

/-- The text is this lexeme, and behind a space more lexemes follow just if it is closed. -/
def IsLedBy (lexeme : Text) (closed : Bool) (text : Text) : Prop :=
  ∃ tail : Text, text = lexeme ++ tail ∧ if closed then tail.head? = some ' ' else tail = []

namespace IsLedBy

variable {lexeme text : Text} {closed : Bool}

theorem isPrefixOf (hled : IsLedBy lexeme closed text) : lexeme <+: text := by
  obtain ⟨tail, rfl, _⟩ := hled
  exact List.prefix_append lexeme tail

theorem split_eq (hled : IsLedBy lexeme closed text) (hvisible : lexeme.AreVisible) :
    ∃ later, Lexeme.split text = lexeme :: later := by
  obtain ⟨tail, rfl, htail⟩ := hled
  cases closed with
  | false =>
    obtain rfl : tail = [] := htail
    exact ⟨[], by rw [List.append_nil, Lexeme.split_of_areVisible hvisible]⟩
  | true =>
    obtain ⟨rest, rfl⟩ := List.head?_eq_some_iff.mp (show tail.head? = some ' ' from htail)
    exact ⟨Lexeme.split rest, by
      rw [Lexeme.split_append_space, Lexeme.split_of_areVisible hvisible, List.singleton_append]⟩

theorem calculate_eq (hled : IsLedBy lexeme closed text) (hvisible : lexeme.AreVisible)
    (hrejected : Token.accepts lexeme = false) : calculate text = .error (.malformed lexeme) := by
  obtain ⟨later, hsplit⟩ := hled.split_eq hvisible
  apply calculate_of_firstRejected?
  rw [hsplit, Token.firstRejected?_cons, hrejected]
  rfl

/-- What is entered goes to the lexeme until it is closed. -/
theorem append (hled : IsLedBy lexeme closed text) (entered : Text) :
    IsLedBy (lexeme ++ if closed then [] else entered) closed (text ++ entered) := by
  obtain ⟨tail, rfl, htail⟩ := hled
  cases closed with
  | false =>
    obtain rfl : tail = [] := htail
    exact ⟨[], by simp, rfl⟩
  | true =>
    obtain ⟨rest, rfl⟩ := List.head?_eq_some_iff.mp (show tail.head? = some ' ' from htail)
    exact ⟨' ' :: rest ++ entered, by simp, rfl⟩

/-- An operator closes the lexeme, and if it is refused the lexeme was closed before. -/
theorem pushOperator (hled : IsLedBy lexeme closed text) (hvisible : lexeme.AreVisible)
    (hne : lexeme ≠ []) (op : Operator) :
    IsLedBy lexeme true (Entry.pushOperator ⟨text⟩ op).text := by
  obtain ⟨tail, rfl, htail⟩ := hled
  rw [Entry.pushOperator, Entry.pushOperator?]
  cases closed with
  | false =>
    obtain rfl : tail = [] := htail
    have haccepts : (Entry.mk (lexeme ++ [])).acceptsOperator = true := by
      have hlast : lexeme.getLast? ≠ some ' ' := fun hspace =>
        ne_space_of_isBlank (hvisible _ (List.mem_of_getLast? hspace)) rfl
      simp [Entry.acceptsOperator, hne, hlast]
    rw [if_pos haccepts, List.append_nil]
    exact ⟨Entry.operatorText op, rfl, rfl⟩
  | true =>
    obtain ⟨rest, rfl⟩ := List.head?_eq_some_iff.mp (show tail.head? = some ' ' from htail)
    split
    · exact ⟨' ' :: rest ++ Entry.operatorText op, by simp, rfl⟩
    · exact ⟨' ' :: rest, rfl, rfl⟩

end IsLedBy

/-! ### Digits before an operator -/

namespace Action

def isOperator : Action → Bool
  | operator _ => true
  | _ => false

/-- The character that a press enters, if it is a digit that can be entered. -/
def digitChar? : Action → Option Char
  | digit value => if value ≤ 9 then some (Nat.digitChar value.toNat) else none
  | _ => none

end Action

/-- The digits that presses enter before the first operator. -/
def leadingDigits (actions : List Action) : Text :=
  (actions.takeWhile fun action => !action.isOperator).filterMap Action.digitChar?

theorem leadingDigits_cons (action : Action) (later : List Action) :
    leadingDigits (action :: later) =
      if action.isOperator then [] else action.digitChar?.toList ++ leadingDigits later := by
  cases hoperator : action.isOperator <;> cases hdigit : action.digitChar? <;>
    simp [leadingDigits, hoperator, hdigit]

theorem leadingDigits_concat (actions : List Action) (action : Action) :
    leadingDigits (actions ++ [action]) =
      leadingDigits actions ++ if actions.any Action.isOperator then [] else action.digitChar?.toList := by
  induction actions with
  | nil =>
    cases action with
    | digit value =>
      rw [List.nil_append, leadingDigits_cons]
      simp [Action.isOperator, leadingDigits]
    | _ => rfl
  | cons first later ih =>
    rw [List.cons_append, leadingDigits_cons, leadingDigits_cons, ih, List.any_cons]
    cases first.isOperator <;> simp

theorem areDigits_leadingDigits (actions : List Action) : (leadingDigits actions).AreDigits := by
  intro c hc
  obtain ⟨action, _, haction⟩ := List.mem_filterMap.mp hc
  cases action with
  | digit value =>
    rw [Action.digitChar?] at haction
    split at haction
    · rename_i hvalue
      obtain rfl := Option.some.inj haction
      exact Line.isDigit_digitChar hvalue
    · cases haction
  | _ => cases haction

/-! ### Sessions -/

namespace Session

open Binary64

theorem areVisible_name_append {name : Text} (hname : name ∈ names) (actions : List Action) :
    AreVisible (name ++ leadingDigits actions) :=
  areVisible_append.mpr ⟨areVisible_name hname, (areDigits_leadingDigits actions).areVisible⟩

theorem outcome_of_isLedBy {session : Session} {lexeme : Text} {closed : Bool}
    (hled : IsLedBy lexeme closed session.entry.text) (hvisible : lexeme.AreVisible)
    (hrejected : Token.accepts lexeme = false) : session.outcome = .error (.malformed lexeme) := by
  rw [outcome, shownValue, hled.calculate_eq hvisible hrejected]
  rfl

theorem text_press_digit (session : Session) (value : UInt8) :
    (session.press (.digit value)).entry.text = session.entry.text ++ (Action.digit value).digitChar?.toList := by
  by_cases hvalue : value ≤ 9 <;>
    simp [press, Entry.pushDigit, Entry.pushDigit?, Action.digitChar?, hvalue]

theorem isLedBy_press {session : Session} {lexeme : Text} {closed : Bool}
    (hled : IsLedBy lexeme closed session.entry.text) (hvisible : lexeme.AreVisible) (hne : lexeme ≠ [])
    (hrejected : Token.accepts lexeme = false) {action : Action} (hclear : action ≠ .clear)
    (hbackspace : action ≠ .backspace) :
    IsLedBy (lexeme ++ if closed then [] else action.digitChar?.toList) (closed || action.isOperator)
      (session.press action).entry.text := by
  cases action with
  | digit value =>
    rw [text_press_digit, show (Action.digit value).isOperator = false from rfl, Bool.or_false]
    exact hled.append _
  | operator op =>
    have hclosed : IsLedBy lexeme true (session.press (.operator op)).entry.text :=
      hled.pushOperator hvisible hne op
    simpa [Action.digitChar?, Action.isOperator] using hclosed
  | equals =>
    rw [press, equals_of_error (outcome_of_isLedBy hled hvisible hrejected)]
    simpa [Action.digitChar?, Action.isOperator] using hled
  | clear => exact absurd rfl hclear
  | backspace => exact absurd rfl hbackspace

variable {session : Session} {name : Text}

theorem isLedBy_pressAll (hname : name ∈ names) (hentry : session.entry = ⟨name⟩) {later : List Action}
    (hclear : .clear ∉ later) (hbackspace : .backspace ∉ later) :
    IsLedBy (name ++ leadingDigits later) (later.any Action.isOperator) (session.pressAll later).entry.text := by
  induction later using List.reverseRecOn with
  | nil => exact ⟨[], by simp [pressAll, hentry, leadingDigits], rfl⟩
  | append_singleton later action ih =>
    simp only [List.mem_append, List.mem_singleton, not_or] at hclear hbackspace
    have hne : name ++ leadingDigits later ≠ [] := by simp [name_ne_nil hname]
    have hled := isLedBy_press (ih hclear.1 hbackspace.1) (areVisible_name_append hname later) hne
      (not_accepts_name_append hname _) (Ne.symm hclear.2) (Ne.symm hbackspace.2)
    rw [List.append_assoc, ← leadingDigits_concat] at hled
    rw [pressAll_concat, List.any_append, List.any_cons, List.any_nil, Bool.or_false]
    exact hled

end Session

open Binary64

/-- When a result that is not finite has been entered, then whatever digits, operators and equals are
pressed, the entry starts with it, and equals is an error that names it with the digits that were pressed
before an operator and leaves the entry. -/
theorem non_finite_result_persists (session : Session) (hreenter : session.config.reenterResult = true)
    (name : Text) (hname : name ∈ names) (hshown : session.outcome = .ok name) (later : List Action)
    (hclear : .clear ∉ later) (hbackspace : .backspace ∉ later) :
    let reached := session.equals.pressAll later
    name <+: reached.entry.text ∧
      reached.outcome = .error (.malformed (name ++ leadingDigits later)) ∧
      reached.equals = ⟨session.config, reached.entry, some session.config.errorIndicator⟩ := by
  intro reached
  have hentry : session.equals.entry = ⟨name⟩ := by
    rw [Session.equals_of_ok hshown, if_pos hreenter]
  have hconfig : reached.config = session.config :=
    (Session.config_pressAll _ later).trans (Session.config_press session .equals)
  have hled : IsLedBy (name ++ leadingDigits later) _ reached.entry.text :=
    Session.isLedBy_pressAll hname hentry hclear hbackspace
  have hmalformed : reached.outcome = .error (.malformed (name ++ leadingDigits later)) :=
    Session.outcome_of_isLedBy hled (Session.areVisible_name_append hname later)
      (not_accepts_name_append hname _)
  refine ⟨(List.prefix_append name _).trans hled.isPrefixOf, hmalformed, ?_⟩
  rw [Session.equals_of_error hmalformed, hconfig]

/-- Digits, equals and a digit that is refused behind the quotient of 5 and 0, and then a sum. -/
theorem non_finite_result_persists_infinity :
    let session := (Session.start {}).pressAll [.digit 5, .operator .divide, .digit 0]
    let later : List Action :=
      [.digit 3, .digit 12, .equals, .digit 4, .operator .add, .operator .divide, .digit 1]
    let reached := session.equals.pressAll later
    session.config.reenterResult = true ∧ "Infinity".toList ∈ names ∧
      session.outcome = .ok "Infinity".toList ∧ .clear ∉ later ∧ .backspace ∉ later ∧
      leadingDigits later = ['3', '4'] ∧ reached.entry.text = "Infinity34 + 1".toList ∧
      "Infinity".toList <+: reached.entry.text ∧
      reached.outcome = .error (.malformed ("Infinity".toList ++ leadingDigits later)) ∧
      reached.equals = ⟨session.config, reached.entry, some session.config.errorIndicator⟩ := by
  intro session later reached
  have hreenter : session.config.reenterResult = true := by decide +kernel
  have hname : "Infinity".toList ∈ names := by decide
  have hshown : session.outcome = .ok "Infinity".toList := by decide +kernel
  have hclear : .clear ∉ later := by decide
  have hbackspace : .backspace ∉ later := by decide
  exact ⟨hreenter, hname, hshown, hclear, hbackspace, by decide, by decide +kernel,
    non_finite_result_persists session hreenter _ hname hshown later hclear hbackspace⟩

end FourFunction
