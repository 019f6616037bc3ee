import FourFunction.Proofs.Backspace
import FourFunction.Proofs.KeyTexts
import FourFunction.Proofs.SignificantDigits

/-!
# Key strings and actions

The labels of actions, typed one behind the other with blanks anywhere, are read back as the actions, and
what is read has the labels that were typed. The symbols of the keys are listed here apart from the
function that reads them and from the one that prints labels, and a key string is refused just for a
character that is not listed, the first that is no blank.
-/

namespace FourFunction

open Text

/-! ### Blanks in a text -/

namespace Text

/-- A text with blanks put in anywhere. -/
inductive IsSpaced : Text → Text → Prop
  | nil : IsSpaced [] []
  | keep (c : Char) {text spaced : Text} : IsSpaced text spaced → IsSpaced (c :: text) (c :: spaced)
  | blank {c : Char} {text spaced : Text} :
    isBlank c = true → IsSpaced text spaced → IsSpaced text (c :: spaced)

theorem withoutBlanks_cons_of_blank {c : Char} (hc : isBlank c = true) (text : Text) :
    withoutBlanks (c :: text) = text.withoutBlanks :=
  List.filter_cons_of_neg (by simp [hc])

theorem AreVisible.withoutBlanks_eq {text : Text} (htext : text.AreVisible) : text.withoutBlanks = text :=
  List.filter_eq_self.mpr fun c hc => by simp [htext c hc]

theorem IsSpaced.withoutBlanks_eq {text spaced : Text} (hspaced : IsSpaced text spaced) :
    spaced.withoutBlanks = text.withoutBlanks := by
  induction hspaced with
  | nil => rfl
  | keep c _ ih =>
    cases hc : isBlank c with
    | true => rw [withoutBlanks_cons_of_blank hc, withoutBlanks_cons_of_blank hc, ih]
    | false => rw [withoutBlanks_cons_of_visible hc, withoutBlanks_cons_of_visible hc, ih]
  | blank hc _ ih => rw [withoutBlanks_cons_of_blank hc, ih]

end Text

namespace Action

/-! ### The symbols of the keys -/

def symbols : Text :=
  ['0', '1', '2', '3', '4', '5', '6', '7', '8', '9', '+', '-', '*', '/', '=', 'C', '<']

/-- Clearing may be typed in lower case. -/
def foldCase (c : Char) : Char :=
  if c = 'c' then 'C' else c

def IsKey (c : Char) : Prop :=
  c ∈ symbols ∨ c = 'c'

instance (c : Char) : Decidable (IsKey c) :=
  inferInstanceAs (Decidable (c ∈ symbols ∨ c = 'c'))

theorem isKey_iff {c : Char} : IsKey c ↔ foldCase c ∈ symbols := by
  by_cases hc : c = 'c'
  · rw [hc]
    decide
  · rw [IsKey, foldCase, if_neg hc]
    exact or_iff_left hc

theorem keySymbol_mem_symbols {action : Action} (hkey : action.HasKey) : action.keySymbol ∈ symbols := by
  cases action with
  | digit value =>
    have hdigits : ∀ digit : Fin 10, keySymbol (.digit digit.val.toUInt8) ∈ symbols := by decide
    obtain ⟨digit, rfl⟩ := exists_fin_of_le hkey
    exact hdigits digit
  | operator op => cases op <;> decide
  | equals => decide
  | clear => decide
  | backspace => decide

theorem label_eq {action : Action} (hkey : action.HasKey) : action.label = [action.keySymbol] := by
  cases action with
  | digit value =>
    have hdigits : ∀ digit : Fin 10,
        label (.digit digit.val.toUInt8) = [keySymbol (.digit digit.val.toUInt8)] := by decide
    obtain ⟨digit, rfl⟩ := exists_fin_of_le hkey
    exact hdigits digit
  | operator op => rfl
  | equals => rfl
  | clear => rfl
  | backspace => rfl

theorem flatMap_label {actions : List Action} (hkeys : ∀ action ∈ actions, action.HasKey) :
    actions.flatMap label = actions.map keySymbol := by
  rw [List.flatMap_congr fun action haction => label_eq (hkeys action haction), List.map_eq_flatMap]

theorem isBlank_keySymbol {action : Action} (hkey : action.HasKey) : isBlank action.keySymbol = false := by
  cases action with
  | digit value => exact isBlank_of_isDigit (Line.isDigit_digitChar hkey)
  | operator op => exact isBlank_symbol op
  | equals => rfl
  | clear => rfl
  | backspace => rfl

/-! ### One key -/

theorem ofSymbol?_foldCase (c : Char) : ofSymbol? (foldCase c) = ofSymbol? c := by
  by_cases hc : c = 'c'
  · rw [hc]
    rfl
  · rw [foldCase, if_neg hc]

theorem foldCase_of_isDigit {c : Char} (hc : c.isDigit = true) : foldCase c = c := by
  rw [foldCase, if_neg]
  rintro rfl
  exact absurd hc (by decide)

theorem foldCase_symbol (op : Operator) : foldCase op.symbol = op.symbol := by
  cases op <;> rfl

theorem hasKey_digit_of_isDigit {c : Char} (hc : c.isDigit = true) :
    (digit (c.toNat - '0'.toNat).toUInt8).HasKey ∧ (digit (c.toNat - '0'.toNat).toUInt8).keySymbol = c := by
  obtain ⟨hless, hchar⟩ := Decimal.digitChar_sub_of_isDigit hc
  have hvalue : (c.toNat - '0'.toNat).toUInt8.toNat = c.toNat - '0'.toNat :=
    Nat.mod_eq_of_lt (Nat.lt_trans hless (by decide))
  constructor
  · refine UInt8.le_iff_toNat_le.mpr ?_
    rw [hvalue]
    exact Nat.le_of_lt_succ hless
  · rw [keySymbol, hvalue, hchar]

/-- The character is the symbol of the action it types, but for the case of its letter. -/
theorem ofSymbol?_eq_some_iff {c : Char} {action : Action} :
    ofSymbol? c = some action ↔ action.HasKey ∧ action.keySymbol = foldCase c := by
  constructor
  · intro haction
    by_cases hdigit : c.isDigit = true
    · rw [ofSymbol?, if_pos hdigit] at haction
      rw [← Option.some.inj haction, foldCase_of_isDigit hdigit]
      exact hasKey_digit_of_isDigit hdigit
    · rw [ofSymbol?, if_neg hdigit] at haction
      by_cases hequals : c = '='
      · rw [if_pos hequals] at haction
        rw [← Option.some.inj haction, hequals]
        exact ⟨trivial, rfl⟩
      rw [if_neg hequals] at haction
      by_cases hclear : c = 'C' ∨ c = 'c'
      · rw [if_pos hclear] at haction
        rw [← Option.some.inj haction]
        refine ⟨trivial, ?_⟩
        rcases hclear with rfl | rfl <;> rfl
      rw [if_neg hclear] at haction
      by_cases hbackspace : c = '<'
      · rw [if_pos hbackspace] at haction
        rw [← Option.some.inj haction, hbackspace]
        exact ⟨trivial, rfl⟩
      rw [if_neg hbackspace] at haction
      obtain ⟨op, hop, rfl⟩ := Option.map_eq_some_iff.mp haction
      have hsymbol : [c] = [op.symbol] := Operator.ofText?_eq_some_iff.mp hop
      rw [List.singleton_inj.mp hsymbol]
      exact ⟨trivial, (foldCase_symbol op).symm⟩
  · rintro ⟨hkey, hsymbol⟩
    rw [← ofSymbol?_foldCase, ← hsymbol]
    exact ofSymbol?_keySymbol hkey

theorem ofSymbol?_eq_none_iff {c : Char} : ofSymbol? c = none ↔ ¬IsKey c := by
  rw [isKey_iff, ← not_iff_not, not_not]
  constructor
  · intro hsome
    obtain ⟨action, haction⟩ := Option.ne_none_iff_exists'.mp hsome
    obtain ⟨hkey, hsymbol⟩ := ofSymbol?_eq_some_iff.mp haction
    rw [← hsymbol]
    exact keySymbol_mem_symbols hkey
  · intro hkey
    have hsymbols : symbols.all (fun symbol => (ofSymbol? symbol).isSome) = true := by decide
    rw [← ofSymbol?_foldCase]
    exact Option.isSome_iff_ne_none.mp (List.all_eq_true.mp hsymbols _ hkey)

/-- Each symbol is on one key of the layout. -/
example : (layout.flatMap label).Perm symbols := by decide

/-! ### Key strings -/

theorem ofKeys_cons_of_blank {c : Char} (hc : isBlank c = true) (keys : Text) :
    ofKeys (c :: keys) = ofKeys keys := by
  rw [ofKeys, withoutBlanks_cons_of_blank hc, ofKeys]

theorem ofKeys_cons_of_some {c : Char} (hc : isBlank c = false) {action : Action}
    (haction : ofSymbol? c = some action) (keys : Text) :
    ofKeys (c :: keys) = (ofKeys keys).map (action :: ·) := by
  rw [ofKeys, withoutBlanks_cons_of_visible hc, List.mapM_cons, haction, ofKeys]
  rfl

theorem ofKeys_cons_of_none {c : Char} (hc : isBlank c = false) (hnone : ofSymbol? c = none) (keys : Text) :
    ofKeys (c :: keys) = .error c := by
  rw [ofKeys, withoutBlanks_cons_of_visible hc, List.mapM_cons, hnone]
  rfl

theorem ofKeys_cons_eq_ok_iff {c : Char} (hc : isBlank c = false) {keys : Text} {action : Action}
    {actions : List Action} :
    ofKeys (c :: keys) = .ok (action :: actions) ↔
      ofSymbol? c = some action ∧ ofKeys keys = .ok actions := by
  cases haction : ofSymbol? c with
  | none =>
    rw [ofKeys_cons_of_none hc haction]
    simp
  | some other =>
    rw [ofKeys_cons_of_some hc haction]
    cases ofKeys keys <;> simp [Except.map]

theorem ofKeys_cons_ne_ok_nil {c : Char} (hc : isBlank c = false) (keys : Text) :
    ofKeys (c :: keys) ≠ .ok [] := by
  cases haction : ofSymbol? c with
  | none =>
    rw [ofKeys_cons_of_none hc haction]
    simp
  | some action =>
    rw [ofKeys_cons_of_some hc haction]
    cases ofKeys keys <;> simp [Except.map]

theorem ofKeys_eq_ok_iff_map_keySymbol {keys : Text} {actions : List Action} :
    ofKeys keys = .ok actions ↔
      (∀ action ∈ actions, action.HasKey) ∧ actions.map keySymbol = (withoutBlanks keys).map foldCase := by
  induction keys generalizing actions with
  | nil =>
    cases actions with
    | nil => simp [ofKeys, withoutBlanks, pure, Except.pure]
    | cons action actions => simp [ofKeys, withoutBlanks, pure, Except.pure]
  | cons c keys ih =>
    cases hblank : isBlank c with
    | true => rw [ofKeys_cons_of_blank hblank, withoutBlanks_cons_of_blank hblank, ih]
    | false =>
      rw [withoutBlanks_cons_of_visible hblank, List.map_cons]
      cases actions with
      | nil => simp [ofKeys_cons_ne_ok_nil hblank]
      | cons action actions =>
        rw [ofKeys_cons_eq_ok_iff hblank, ofSymbol?_eq_some_iff, ih, List.forall_mem_cons, List.map_cons,
          List.cons.injEq]
        exact and_and_and_comm

/-- A key string is read as actions that have keys and whose labels it spells, but for blanks and case. -/
theorem ofKeys_eq_ok_iff {keys : Text} {actions : List Action} :
    ofKeys keys = .ok actions ↔
      (∀ action ∈ actions, action.HasKey) ∧ actions.flatMap label = (withoutBlanks keys).map foldCase := by
  rw [ofKeys_eq_ok_iff_map_keySymbol]
  refine and_congr_right fun hkeys => ?_
  rw [flatMap_label hkeys]

def isStray (c : Char) : Bool :=
  !isBlank c && (ofSymbol? c).isNone

theorem isStray_eq_true_iff {c : Char} : isStray c = true ↔ isBlank c = false ∧ ¬IsKey c := by
  rw [← ofSymbol?_eq_none_iff]
  simp [isStray]

theorem isStray_eq_false_iff {c : Char} : isStray c = false ↔ isBlank c = true ∨ IsKey c := by
  rw [← Bool.not_eq_true, isStray_eq_true_iff, not_and_or, not_not, Bool.not_eq_false]

theorem ofKeys_eq_error_iff_find? {keys : Text} {c : Char} :
    ofKeys keys = .error c ↔ keys.find? isStray = some c := by
  induction keys with
  | nil => simp [ofKeys, withoutBlanks, pure, Except.pure]
  | cons other keys ih =>
    cases hblank : isBlank other with
    | true => rw [ofKeys_cons_of_blank hblank, ih, List.find?_cons_of_neg (by simp [isStray, hblank])]
    | false =>
      cases haction : ofSymbol? other with
      | none =>
        rw [ofKeys_cons_of_none hblank haction, List.find?_cons_of_pos (by simp [isStray, hblank, haction])]
        simp
      | some action =>
        rw [ofKeys_cons_of_some hblank haction,
          List.find?_cons_of_neg (by simp [isStray, haction]), ← ih]
        cases ofKeys keys <;> simp [Except.map]

/-- The first character that is neither blank nor a key is the error, whatever follows. -/
theorem ofKeys_eq_error_iff {keys : Text} {c : Char} :
    ofKeys keys = .error c ↔
      ∃ before behind, keys = before ++ c :: behind ∧
        (∀ other ∈ before, isBlank other = true ∨ IsKey other) ∧ isBlank c = false ∧ ¬IsKey c := by
  rw [ofKeys_eq_error_iff_find?, List.find?_eq_some_iff_append]
  constructor
  · rintro ⟨hstray, before, behind, hkeys, hbefore⟩
    refine ⟨before, behind, hkeys, ?_, isStray_eq_true_iff.mp hstray⟩
    intro other hother
    exact isStray_eq_false_iff.mp (by simpa using hbefore other hother)
  · rintro ⟨before, behind, hkeys, hbefore, hstray⟩
    refine ⟨isStray_eq_true_iff.mpr hstray, before, behind, hkeys, ?_⟩
    intro other hother
    rw [isStray_eq_false_iff.mpr (hbefore other hother)]
    rfl

end Action

/-- The labels of actions that have keys, with blanks put in anywhere, are read as those actions. What is
read of a key string has the labels that the string spells, and a string is refused for the first character
that is neither blank nor a key. -/
theorem typed_actions :
    (∀ (actions : List Action) (keys : Text), (∀ action ∈ actions, action.HasKey) →
      IsSpaced (actions.flatMap Action.label) keys → Action.ofKeys keys = .ok actions) ∧
    (∀ (keys : Text) (actions : List Action), Action.ofKeys keys = .ok actions ↔
      (∀ action ∈ actions, action.HasKey) ∧
        actions.flatMap Action.label = (withoutBlanks keys).map Action.foldCase) ∧
    ∀ (keys : Text) (c : Char), Action.ofKeys keys = .error c ↔
      ∃ before behind, keys = before ++ c :: behind ∧
        (∀ other ∈ before, isBlank other = true ∨ Action.IsKey other) ∧
        isBlank c = false ∧ ¬Action.IsKey c := by
  refine ⟨?_, fun _ _ => Action.ofKeys_eq_ok_iff, fun _ _ => Action.ofKeys_eq_error_iff⟩
  intro actions keys hkeys hspaced
  have hlabels := Action.flatMap_label hkeys
  have hvisible : AreVisible (actions.map Action.keySymbol) := by
    intro c hc
    obtain ⟨action, haction, rfl⟩ := List.mem_map.mp hc
    exact Action.isBlank_keySymbol (hkeys action haction)
  refine Action.ofKeys_eq_ok hkeys ?_
  rw [hspaced.withoutBlanks_eq, hlabels, hvisible.withoutBlanks_eq]

/-- The keys `1 +` and then a wide blank and `C`. -/
theorem typed_actions_wide_blank :
    let actions := [Action.digit 1, .operator .add, .clear]
    let keys := ['1', ' ', '+', '\u3000', 'C']
    (∀ action ∈ actions, action.HasKey) ∧ IsSpaced (actions.flatMap Action.label) keys ∧
      Action.ofKeys keys = .ok actions := by
  intro actions keys
  have hkeys : ∀ action ∈ actions, action.HasKey := by
    simp [actions, Action.HasKey]
  have hspaced : IsSpaced (actions.flatMap Action.label) keys :=
    .keep '1' (.blank rfl (.keep '+' (.blank rfl (.keep 'C' .nil))))
  exact ⟨hkeys, hspaced, typed_actions.1 actions keys hkeys hspaced⟩

end FourFunction
