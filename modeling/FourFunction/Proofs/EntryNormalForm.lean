import Mathlib.Data.List.Destutter
import FourFunction.Proofs.ChainedCalculation
import FourFunction.Proofs.KeyTexts
import FourFunction.Proofs.NonFiniteResults

/-!
# The entry as a function of the presses

Whether a press is accepted depends on the last character of the entry only. Told from the presses, those
take effect that are left when digits above nine, operators at the start and operators behind another
operator are taken out, and the entry spells just these. Typed as keys the entry is these presses again,
and they leave the same entry.
-/

namespace FourFunction

namespace Action

/-! ### Presses that take effect -/

/-- A digit or an operator. -/
def isEntry : Action → Bool
  | digit _ => true
  | operator _ => true
  | _ => false

/-- A digit up to nine or an operator. -/
def isEnterable : Action → Bool
  | digit value => value ≤ 9
  | operator _ => true
  | _ => false

/-- No operator takes effect behind an operator. -/
def MayFollow (earlier later : Action) : Prop :=
  ¬(earlier.isOperator = true ∧ later.isOperator = true)

instance : DecidableRel MayFollow :=
  fun earlier later => inferInstanceAs (Decidable ¬(earlier.isOperator = true ∧ later.isOperator = true))

/-- What is left of presses without the digits above nine, then without the operators at the start, and
then without all operators of a run but its first. -/
def effective (presses : List Action) : List Action :=
  ((presses.filter isEnterable).dropWhile isOperator).destutter MayFollow

/-- A press as it is spelled in an entry. -/
def entryText : Action → Text
  | operator op => Entry.operatorText op
  | press => [press.keySymbol]

/-! ### Runs of operators -/

theorem destutter_cons_of_not_isOperator {press : Action} (hpress : press.isOperator = false)
    (later : List Action) :
    (press :: later).destutter MayFollow = press :: later.destutter MayFollow := by
  cases later with
  | nil => rfl
  | cons next later =>
    have hfollows : MayFollow press next := fun hboth => by simp [hpress] at hboth
    rw [List.destutter_cons', List.destutter'_cons_pos _ hfollows, List.destutter_cons']

theorem destutter_operator_cons (op : Operator) (later : List Action) :
    (operator op :: later).destutter MayFollow =
      operator op :: (later.dropWhile isOperator).destutter MayFollow := by
  induction later with
  | nil => rfl
  | cons next later ih =>
    rw [List.destutter_cons'] at ih ⊢
    by_cases hnext : next.isOperator = true
    · have hstops : ¬MayFollow (operator op) next := not_not_intro ⟨rfl, hnext⟩
      rw [List.destutter'_cons_neg _ hstops, List.dropWhile_cons_of_pos hnext, ih]
    · have hfollows : MayFollow (operator op) next := fun hboth => hnext hboth.2
      rw [List.destutter'_cons_pos _ hfollows, List.dropWhile_cons_of_neg hnext, List.destutter_cons']

theorem dropWhile_destutter_dropWhile (presses : List Action) :
    ((presses.dropWhile isOperator).destutter MayFollow).dropWhile isOperator =
      (presses.dropWhile isOperator).destutter MayFollow := by
  cases hpresses : presses.dropWhile isOperator with
  | nil => rfl
  | cons press later =>
    have hpress : press.isOperator = false := by
      have hhead := List.head?_dropWhile_not isOperator presses
      rw [hpresses] at hhead
      simpa using hhead
    rw [destutter_cons_of_not_isOperator hpress, List.dropWhile_cons_of_neg (by simp [hpress])]

theorem isEnterable_of_mem_effective {presses : List Action} {press : Action}
    (hpress : press ∈ effective presses) : press.isEnterable = true := by
  have hmem := (List.dropWhile_sublist _).mem ((List.destutter_sublist _ _).mem hpress)
  exact (List.mem_filter.mp hmem).2

/-- What takes effect takes effect again. -/
theorem effective_effective (presses : List Action) : effective (effective presses) = effective presses := by
  have hfilter : (effective presses).filter isEnterable = effective presses :=
    List.filter_eq_self.mpr fun _ hpress => isEnterable_of_mem_effective hpress
  rw [effective, hfilter, effective, dropWhile_destutter_dropWhile, List.destutter_idem]

end Action

/-! ### The entry of a session -/

namespace Session

open FourFunction.Action Text

variable {session : Session} {later : List Action}

theorem entry_press_digit (session : Session) (value : UInt8) :
    (session.press (.digit value)).entry = ⟨session.entry.text ++ (digit value).digitChar?.toList⟩ :=
  congrArg Entry.mk (text_press_digit session value)

theorem entry_press_of_refused_operator (hrefused : session.entry.acceptsOperator = false)
    (op : Operator) : (session.press (.operator op)).entry = session.entry := by
  rw [press, Entry.pushOperator, Entry.pushOperator?, hrefused]
  rfl

/-- What the presses add to an entry. Where it accepts no operator, the operators before the next digit
have no effect. -/
def added (accepts : Bool) (presses : List Action) : List Action :=
  let enterable := presses.filter isEnterable
  (if accepts then enterable else enterable.dropWhile isOperator).destutter MayFollow

theorem added_digit (accepts : Bool) {value : UInt8} (hvalue : value ≤ 9) :
    added accepts (.digit value :: later) = .digit value :: added true later := by
  have hkept : isEnterable (.digit value) = true := decide_eq_true hvalue
  have hdigit : isOperator (.digit value) = false := rfl
  rw [added, List.filter_cons_of_pos hkept, List.dropWhile_cons_of_neg (by simp [hdigit]), ite_self,
    destutter_cons_of_not_isOperator hdigit]
  rfl

theorem added_refused_digit (accepts : Bool) {value : UInt8} (hvalue : ¬value ≤ 9) :
    added accepts (.digit value :: later) = added accepts later := by
  have hdropped : ¬isEnterable (.digit value) = true := by simpa [isEnterable] using hvalue
  rw [added, List.filter_cons_of_neg hdropped, added]

theorem added_operator (op : Operator) :
    added true (.operator op :: later) = .operator op :: added false later := by
  rw [added, List.filter_cons_of_pos rfl, if_pos rfl, destutter_operator_cons]
  rfl

theorem added_refused_operator (op : Operator) :
    added false (.operator op :: later) = added false later := by
  rw [added, List.filter_cons_of_pos rfl, if_neg Bool.false_ne_true, List.dropWhile_cons_of_pos rfl]
  rfl

theorem text_pressAll_eq (session : Session) {presses : List Action}
    (hentry : ∀ press ∈ presses, press.isEntry = true) :
    (session.pressAll presses).entry.text =
      session.entry.text ++ (added session.entry.acceptsOperator presses).flatMap entryText := by
  induction presses generalizing session with
  | nil => cases session.entry.acceptsOperator <;> exact (List.append_nil _).symm
  | cons press later ih =>
    obtain ⟨hpress, hlater⟩ := List.forall_mem_cons.mp hentry
    have hrun := ih (session.press press) hlater
    show ((session.press press).pressAll later).entry.text = _
    rw [hrun]
    cases press with
    | digit value =>
      rw [entry_press_digit]
      by_cases hvalue : value ≤ 9
      · have hchar : (digit value).digitChar? = some (Nat.digitChar value.toNat) := if_pos hvalue
        have hdigit := areDigits_singleton (Line.isDigit_digitChar hvalue)
        have haccepts := Entry.acceptsOperator_append session.entry.text (hdigit.isOperand (by simp))
        rw [hchar, Option.toList_some, haccepts, added_digit _ hvalue, List.flatMap_cons, List.append_assoc]
        rfl
      · have hchar : (digit value).digitChar? = none := if_neg hvalue
        rw [hchar, Option.toList_none, List.append_nil, added_refused_digit _ hvalue]
    | operator op =>
      cases haccepts : session.entry.acceptsOperator with
      | true =>
        have hrefuses : (Entry.mk (session.entry.text ++ Entry.operatorText op)).acceptsOperator = false := by
          simp [Entry.acceptsOperator, Entry.operatorText]
        rw [entry_press_operator haccepts, hrefuses, added_operator, List.flatMap_cons, List.append_assoc]
        rfl
      | false => rw [entry_press_of_refused_operator haccepts, haccepts, added_refused_operator]
    | equals => cases hpress
    | clear => cases hpress
    | backspace => cases hpress

theorem text_pressAll_start (config : Config) {presses : List Action}
    (hentry : ∀ press ∈ presses, press.isEntry = true) :
    ((start config).pressAll presses).entry.text = (effective presses).flatMap entryText :=
  text_pressAll_eq (start config) hentry

end Session

/-! ### The entry as keys -/

namespace Action

theorem isEntry_of_isEnterable {press : Action} (hpress : press.isEnterable = true) :
    press.isEntry = true := by
  cases press <;> simp_all [isEnterable, isEntry]

theorem hasKey_of_isEnterable {press : Action} (hpress : press.isEnterable = true) : press.HasKey := by
  cases press with
  | digit value =>
    show value ≤ 9
    exact of_decide_eq_true hpress
  | _ => trivial

theorem withoutBlanks_entryText {press : Action} (hpress : press.isEnterable = true) :
    Text.withoutBlanks press.entryText = [press.keySymbol] := by
  cases press with
  | digit value =>
    have hvisible := Text.isBlank_of_isDigit (Line.isDigit_digitChar (of_decide_eq_true hpress))
    simp [entryText, keySymbol, Text.withoutBlanks, hvisible]
  | operator op => cases op <;> decide
  | _ => cases hpress

theorem withoutBlanks_flatMap_entryText {presses : List Action}
    (hpresses : ∀ press ∈ presses, press.isEnterable = true) :
    Text.withoutBlanks (presses.flatMap entryText) = presses.map keySymbol := by
  induction presses with
  | nil => rfl
  | cons press later ih =>
    obtain ⟨hpress, hlater⟩ := List.forall_mem_cons.mp hpresses
    have hfirst := withoutBlanks_entryText hpress
    have hrest := ih hlater
    rw [Text.withoutBlanks] at hfirst hrest
    rw [List.flatMap_cons, Text.withoutBlanks, List.filter_append, hfirst, hrest]
    rfl

end Action

/-- The entry after digits and operators spells the presses that take effect. Typed as keys it is just
these presses, and they leave the same entry again. -/
theorem entry_normal_form (config : Config) (presses : List Action)
    (hentry : ∀ press ∈ presses, press.isEntry = true) :
    let text := ((Session.start config).pressAll presses).entry.text
    let kept := Action.effective presses
    text = kept.flatMap Action.entryText ∧
      Action.ofKeys text = .ok kept ∧
      ∀ other : Config, ((Session.start other).pressAll kept).entry.text = text := by
  intro text kept
  have htext : text = kept.flatMap Action.entryText := Session.text_pressAll_start config hentry
  have henterable : ∀ press ∈ kept, press.isEnterable = true :=
    fun _ hpress => Action.isEnterable_of_mem_effective hpress
  refine ⟨htext, ?_, ?_⟩
  · rw [htext]
    apply Action.ofKeys_eq_ok
    · exact fun press hpress => Action.hasKey_of_isEnterable (henterable press hpress)
    · exact Action.withoutBlanks_flatMap_entryText henterable
  · intro other
    have hreplayed := Session.text_pressAll_start other
      fun press hpress => Action.isEntry_of_isEnterable (henterable press hpress)
    rw [hreplayed, Action.effective_effective, htext]

/-- A digit above nine stands between two operators, and an operator at the start. -/
theorem entry_normal_form_runs :
    let presses : List Action := [.operator .subtract, .digit 12, .digit 0, .digit 7, .operator .add,
      .digit 200, .operator .divide, .operator .add, .digit 3, .operator .multiply]
    let kept : List Action := [.digit 0, .digit 7, .operator .add, .digit 3, .operator .multiply]
    (∀ press ∈ presses, press.isEntry = true) ∧ Action.effective presses = kept ∧
      ((Session.start {}).pressAll presses).entry.text = "07 + 3 * ".toList ∧
      Action.ofKeys "07 + 3 * ".toList = .ok kept := by
  intro presses kept
  have hentry : ∀ press ∈ presses, press.isEntry = true := by decide
  have hkept : Action.effective presses = kept := by decide
  obtain ⟨htext, hkeys, _⟩ := entry_normal_form {} presses hentry
  rw [htext, hkept] at hkeys
  exact ⟨hentry, hkept, htext.trans (by rw [hkept]; decide), hkeys⟩

end FourFunction
