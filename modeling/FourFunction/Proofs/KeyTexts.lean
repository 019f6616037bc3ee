import FourFunction.Keypad
import FourFunction.Proofs.DisplayText
import FourFunction.Proofs.Lexemes

/-!
# Actions typed as text

The character that is typed for an action, and the actions that a text types. Blanks may stand anywhere
in the text, so it is the text without them that decides.
-/

namespace FourFunction

namespace Action

/-- Only the digits above nine have no key. -/
def HasKey : Action → Prop
  | digit value => value ≤ 9
  | _ => True

/-- The character typed for an action that has a key. -/
def keySymbol : Action → Char
  | digit value => Nat.digitChar value.toNat
  | operator op => op.symbol
  | equals => '='
  | clear => 'C'
  | backspace => '<'

theorem exists_fin_of_le {value : UInt8} (hvalue : value ≤ 9) :
    ∃ digit : Fin 10, value = digit.val.toUInt8 := by
  have hbound : value.toNat ≤ 9 := UInt8.le_iff_toNat_le.mp hvalue
  exact ⟨⟨value.toNat, by omega⟩, by simp⟩

theorem ofSymbol?_keySymbol {action : Action} (hkey : action.HasKey) :
    ofSymbol? action.keySymbol = some action := by
  cases action with
  | digit value =>
    have hdigits : ∀ digit : Fin 10, ofSymbol? (keySymbol (.digit digit.val.toUInt8)) =
        some (.digit digit.val.toUInt8) := by decide
    obtain ⟨digit, rfl⟩ := exists_fin_of_le hkey
    exact hdigits digit
  | operator op => cases op <;> decide
  | equals => rfl
  | clear => rfl
  | backspace => rfl

theorem mapM_keySymbol {actions : List Action} (hkeys : ∀ action ∈ actions, action.HasKey) :
    ((actions.map keySymbol).mapM fun c =>
      match ofSymbol? c with
      | some action => .ok action
      | none => .error c) = (.ok actions : Except Char (List Action)) := by
  induction actions with
  | nil => rfl
  | cons action later ih =>
    obtain ⟨haction, hlater⟩ := List.forall_mem_cons.mp hkeys
    rw [List.map_cons, List.mapM_cons, ofSymbol?_keySymbol haction, ih hlater]
    rfl

/-- A text types the actions that its characters other than blanks are the symbols of. -/
theorem ofKeys_eq_ok {keys : Text} {actions : List Action} (hkeys : ∀ action ∈ actions, action.HasKey)
    (htext : Text.withoutBlanks keys = actions.map keySymbol) : ofKeys keys = .ok actions := by
  rw [ofKeys, htext]
  exact mapM_keySymbol hkeys

end Action

end FourFunction
