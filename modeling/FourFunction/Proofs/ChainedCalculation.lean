import FourFunction.Proofs.NearestNumber
import FourFunction.Proofs.RepeatedEquals

/-!
# Calculating on from a result

A result that equals has entered again is followed by operators and numbers, and equals is pressed again.
With the decimal display the entry is then a chain whose first operand is the result itself, to the last
bit, so any number of such rounds computes what the exact results would give.
-/

namespace FourFunction

open Text

/-! ### Runs of digit keys -/

/-- One or more digit keys. -/
structure DigitRun where
  digits : List (Fin 10)
  digits_ne_nil : digits ≠ []

namespace DigitRun

def key (digit : Fin 10) : Action :=
  .digit digit.val.toUInt8

def symbol (digit : Fin 10) : Char :=
  Nat.digitChar digit

def keys (run : DigitRun) : List Action :=
  run.digits.map key

def text (run : DigitRun) : Text :=
  run.digits.map symbol

def valueFrom (front : Nat) (digits : List (Fin 10)) : Nat :=
  digits.foldl (fun value (digit : Fin 10) => 10 * value + digit) front

/-- The number nearest to the whole number that the digits are. -/
def number (run : DigitRun) : Binary64 :=
  .nearestWhole (valueFrom 0 run.digits)

theorem isNearest_number {run : DigitRun} (hfinite : run.number.isFinite = true) :
    run.number.IsNearest (valueFrom 0 run.digits) :=
  Binary64.isNearest_nearestWhole ((Binary64.isFinite_nearestWhole _).mp hfinite)

theorem isDigit_symbol (digit : Fin 10) : (symbol digit).isDigit = true := by
  rw [symbol, Nat.isDigit_digitChar, decide_eq_true_eq]
  exact digit.isLt

theorem areDigits_text (run : DigitRun) : run.text.AreDigits := by
  intro c hc
  obtain ⟨digit, _, rfl⟩ := List.mem_map.mp hc
  exact isDigit_symbol digit

theorem text_ne_nil (run : DigitRun) : run.text ≠ [] :=
  mt List.map_eq_nil_iff.mp run.digits_ne_nil

theorem ofDigitChars_map_symbol (digits : List (Fin 10)) (front : Nat) :
    Nat.ofDigitChars 10 (digits.map symbol) front = valueFrom front digits := by
  induction digits generalizing front with
  | nil => rfl
  | cons digit digits ih =>
    rw [List.map_cons, symbol, Nat.ofDigitChars_cons_digitChar_of_lt_ten digit.isLt, ih]
    rfl

theorem finiteValue?_text {run : DigitRun} (hfinite : run.number.isFinite = true) :
    Token.finiteValue? run.text = some run.number := by
  rw [Token.finiteValue?_of_areDigits run.areDigits_text run.text_ne_nil, text, ofDigitChars_map_symbol]
  exact Option.filter_some_pos hfinite

end DigitRun

/-! ### Continuations -/

/-- What is entered behind a result: operators, each with a number. -/
abbrev Continuation := List (Operator × DigitRun)

namespace Continuation

def keys (continuation : Continuation) : List Action :=
  continuation.flatMap fun step => .operator step.1 :: step.2.keys

def text (continuation : Continuation) : Text :=
  continuation.flatMap fun step => Entry.operatorText step.1 ++ step.2.text

def links (continuation : Continuation) : List (Operator × Operand Binary64) :=
  continuation.map fun step => (step.1, ⟨step.2.text, step.2.number⟩)

/-- The result as the first operand, and the continuation behind it. -/
def chainFrom (value : Binary64) (continuation : Continuation) : Chain Binary64 :=
  ⟨⟨value.display .decimal, value⟩, continuation.links⟩

/-- The two-tier value of the result with the continuation behind it. -/
def valueFrom (value : Binary64) (continuation : Continuation) : Binary64 :=
  (chainFrom value continuation).value Operator.apply

def HasFiniteNumbers (continuation : Continuation) : Prop :=
  ∀ step ∈ continuation, step.2.number.isFinite = true

instance (continuation : Continuation) : Decidable continuation.HasFiniteNumbers :=
  inferInstanceAs (Decidable (∀ step ∈ continuation, step.2.number.isFinite = true))

theorem split_append_text (front : Text) (continuation : Continuation) :
    Lexeme.split (front ++ continuation.text) =
      Lexeme.split front ++ (Chain.linkTokens continuation.links).map Token.text := by
  induction continuation generalizing front with
  | nil => simp [text, links, Chain.linkTokens]
  | cons step rest ih =>
    let segment : Segment := ⟨step.1, false, step.2.text⟩
    have hvalid : segment.IsValid := ⟨step.2.areDigits_text, fun hnil => absurd hnil step.2.text_ne_nil⟩
    have hspelled : front ++ text (step :: rest) = (front ++ segment.text) ++ text rest := by
      simp [text, segment, Segment.text]
    rw [hspelled, ih, Segment.split_append_text front hvalid]
    simp [segment, Segment.lexemes, links, Chain.linkTokens, Operand.token, Token.text]

theorem isSpelledBy_chainFrom {value : Binary64} (hfinite : value.isFinite = true) {continuation : Continuation}
    (hnumbers : continuation.HasFiniteNumbers) :
    (chainFrom value continuation).IsSpelledBy (value.display .decimal ++ continuation.text) := by
  constructor
  · rw [split_append_text, Lexeme.split_of_areVisible (Binary64.areVisible_display _ _)]
    rfl
  · intro operand hoperand
    rcases List.mem_cons.mp hoperand with rfl | hlater
    · exact Binary64.finiteValue?_display_decimal hfinite
    · obtain ⟨link, hlink, rfl⟩ := List.mem_map.mp hlater
      obtain ⟨step, hstep, rfl⟩ := List.mem_map.mp hlink
      exact DigitRun.finiteValue?_text (hnumbers step hstep)

end Continuation

/-! ### Entering a continuation -/

theorem Entry.acceptsOperator_append {text : Text} (front : Text) (htext : text.IsOperand) :
    (Entry.mk (front ++ text)).acceptsOperator = true := by
  have hne := htext.ne_nil
  obtain ⟨hvisible, last, hlast, _⟩ := htext
  have hspace := ne_space_of_isBlank (hvisible last (List.mem_of_getLast? hlast))
  rw [acceptsOperator, List.getLast?_append, Option.mem_def.mp hlast]
  simp [hne, hspace]

namespace Session

theorem entry_press_key (session : Session) (digit : Fin 10) :
    (session.press (DigitRun.key digit)).entry = ⟨session.entry.text ++ [DigitRun.symbol digit]⟩ := by
  have hkeys : ∀ digit : Fin 10, digit.val.toUInt8 ≤ 9 ∧ digit.val.toUInt8.toNat = digit := by decide
  obtain ⟨hdigit, hvalue⟩ := hkeys digit
  rw [DigitRun.key, press, Entry.pushDigit, Entry.pushDigit?, if_pos hdigit, hvalue]
  rfl

theorem entry_pressAll_keys (session : Session) (digits : List (Fin 10)) :
    (session.pressAll (digits.map DigitRun.key)).entry =
      ⟨session.entry.text ++ digits.map DigitRun.symbol⟩ := by
  induction digits generalizing session with
  | nil => simp [pressAll]
  | cons digit digits ih =>
    have hlater := ih (session.press (DigitRun.key digit))
    rw [entry_press_key, List.append_assoc] at hlater
    exact hlater

theorem entry_press_operator {session : Session} (haccepts : session.entry.acceptsOperator = true)
    (op : Operator) : (session.press (.operator op)).entry = ⟨session.entry.text ++ Entry.operatorText op⟩ := by
  rw [press, Entry.pushOperator, Entry.pushOperator?, if_pos haccepts]
  rfl

theorem entry_pressAll_continuation {session : Session} (haccepts : session.entry.acceptsOperator = true)
    (continuation : Continuation) :
    (session.pressAll continuation.keys).entry = ⟨session.entry.text ++ continuation.text⟩ := by
  induction continuation generalizing session with
  | nil => simp [Continuation.keys, Continuation.text, pressAll]
  | cons step rest ih =>
    let entered := (session.press (.operator step.1)).pressAll step.2.keys
    have hentered : entered.entry = ⟨session.entry.text ++ Entry.operatorText step.1 ++ step.2.text⟩ := by
      have hdigits := entry_pressAll_keys (session.press (.operator step.1)) step.2.digits
      rw [entry_press_operator haccepts] at hdigits
      exact hdigits
    have hnext : entered.entry.acceptsOperator = true := by
      rw [hentered]
      exact Entry.acceptsOperator_append _ (step.2.areDigits_text.isOperand step.2.text_ne_nil)
    have hpresses : session.pressAll (Continuation.keys (step :: rest)) =
        entered.pressAll (Continuation.keys rest) := by
      simp only [Continuation.keys, List.flatMap_cons, pressAll_append]
      rfl
    rw [hpresses, ih hnext, hentered]
    simp [Continuation.text]

variable {value : Binary64}

/-- The entry after equals and a continuation is the chain from the exact result. -/
theorem calculate_equals_continuation {session : Session} (hformat : session.config.format = .decimal)
    (hreenter : session.config.reenterResult = true) (hvalue : calculate session.entry.text = .ok value)
    (hfinite : value.isFinite = true) {continuation : Continuation}
    (hnumbers : continuation.HasFiniteNumbers) :
    calculate (session.equals.pressAll continuation.keys).entry.text = .ok (continuation.valueFrom value) := by
  have hequals : session.equals.entry = ⟨value.display .decimal⟩ := by
    rw [equals_of_ok (outcome_of_calculate hvalue), if_pos hreenter, hformat]
  have haccepts : session.equals.entry.acceptsOperator = true := by
    rw [hequals]
    exact Entry.acceptsOperator_append [] (Binary64.isOperand_display .decimal value)
  rw [entry_pressAll_continuation haccepts, hequals]
  exact Chain.calculate_of_isSpelledBy (Continuation.isSpelledBy_chainFrom hfinite hnumbers)

end Session

/-! ### Rounds -/

/-- Rounds of equals and a continuation, without the equals that ends the last one. -/
def roundKeys (rounds : List Continuation) : List Action :=
  rounds.flatMap fun continuation => .equals :: continuation.keys

/-- Each round computes on from the exact value of the one before. -/
def valueAfter (value : Binary64) (rounds : List Continuation) : Binary64 :=
  rounds.foldl Continuation.valueFrom value

/-- The value that each round starts from is finite, and so are the numbers entered. -/
def StaysFinite : Binary64 → List Continuation → Prop
  | _, [] => True
  | value, continuation :: rounds =>
    value.isFinite = true ∧ continuation.HasFiniteNumbers ∧ StaysFinite (continuation.valueFrom value) rounds

theorem calculate_pressAll_roundKeys {session : Session} {value : Binary64}
    (hformat : session.config.format = .decimal) (hreenter : session.config.reenterResult = true)
    (hvalue : calculate session.entry.text = .ok value) {rounds : List Continuation}
    (hfinite : StaysFinite value rounds) :
    calculate (session.pressAll (roundKeys rounds)).entry.text = .ok (valueAfter value rounds) := by
  induction rounds generalizing session value with
  | nil => exact hvalue
  | cons continuation rounds ih =>
    obtain ⟨hvalueFinite, hnumbers, hlater⟩ := hfinite
    have hround := Session.calculate_equals_continuation hformat hreenter hvalue hvalueFinite hnumbers
    have hconfig : (session.equals.pressAll continuation.keys).config = session.config := by
      rw [Session.config_pressAll]
      exact Session.config_press session .equals
    have hpresses : session.pressAll (roundKeys (continuation :: rounds)) =
        (session.equals.pressAll continuation.keys).pressAll (roundKeys rounds) := by
      rw [← Session.pressAll_append]
      rfl
    rw [hpresses]
    exact ih (by rw [hconfig, hformat]) (by rw [hconfig, hreenter]) hround hlater

/-- Equals, a continuation and equals again answer with the two-tier value of the continuation behind the
exact result, and so on for any number of rounds from finite results. -/
theorem chained_calculation (session : Session) (value : Binary64) (rounds : List Continuation)
    (hformat : session.config.format = .decimal) (hreenter : session.config.reenterResult = true)
    (hvalue : calculate session.entry.text = .ok value) (hfinite : StaysFinite value rounds) :
    (session.pressAll (roundKeys rounds)).outcome = .ok ((valueAfter value rounds).display .decimal) := by
  have houtcome := Session.outcome_of_calculate (calculate_pressAll_roundKeys hformat hreenter hvalue hfinite)
  rw [Session.config_pressAll, hformat] at houtcome
  exact houtcome

/-- A negative result in scientific notation is continued, and then a fraction is. -/
theorem chained_calculation_twice :
    let number (lexeme : Text) : Binary64 := (Token.finiteValue? lexeme).getD .nan
    let entered : Session := ⟨{}, ⟨"1 - 20000000".toList⟩, none⟩
    let value := (number ['1']).sub (number "20000000".toList)
    let rounds : List Continuation :=
      [[(.divide, ⟨[3], by decide⟩), (.add, ⟨[5], by decide⟩)], [(.multiply, ⟨[1, 2], by decide⟩)]]
    calculate entered.entry.text = .ok value ∧ StaysFinite value rounds ∧
      (entered.pressAll (roundKeys rounds)).outcome = .ok ((valueAfter value rounds).display .decimal) := by
  intro number entered value rounds
  have hvalue : calculate entered.entry.text = .ok value := by decide +kernel
  have hfinite : StaysFinite value rounds :=
    ⟨by decide +kernel, by decide +kernel, by decide +kernel, by decide +kernel, trivial⟩
  exact ⟨hvalue, hfinite, chained_calculation entered value rounds rfl rfl hvalue hfinite⟩

end FourFunction
