import FourFunction.Proofs.Backspace
import FourFunction.Proofs.TextTokens

/-!
# Where glued digits come from

An operator is entered with a space on each side, and digits only at the end. So an operator can stand
in an entry without its second space only from a backspace on that took it, and a digit can stand right
behind the symbol only if it was entered while the symbol was the end of the entry. What the rest needs of
this is `Session.exists_gluedBy`: behind every glued digit there are such a backspace, and later such a
digit, among the presses.
-/

namespace FourFunction

open Text

/-! ### What a press makes of the text -/

/-- Equals and clear may put another text in the place of the entry, which then has no blanks. -/
inductive TextStep (text : Text) : Action → Text → Prop
  | digit (value : UInt8) (hvalue : value ≤ 9) :
      TextStep text (.digit value) (text ++ [Nat.digitChar value.toNat])
  | operator (op : Operator) : TextStep text (.operator op) (text ++ Entry.operatorText op)
  | backspace (next : Text) (hnext : next <+: text) : TextStep text .backspace next
  | replaced (action : Action) (next : Text) (hnext : next.AreVisible) : TextStep text action next
  | kept (action : Action) : TextStep text action text

namespace Session

theorem textStep_press (session : Session) (action : Action) :
    TextStep session.entry.text action (session.press action).entry.text := by
  cases action with
  | digit value =>
    rw [press, Entry.pushDigit, Entry.pushDigit?]
    split
    · rename_i hvalue
      exact .digit value hvalue
    · exact .kept _
  | operator op =>
    rw [press, Entry.pushOperator, Entry.pushOperator?]
    split
    · exact .operator op
    · exact .kept _
  | equals =>
    cases houtcome : session.outcome with
    | error error =>
      rw [press, equals_of_error houtcome]
      exact .kept _
    | ok shown =>
      obtain ⟨value, _, rfl⟩ := outcome_eq_ok_iff.mp houtcome
      rw [press, equals_of_ok houtcome]
      split
      · exact .replaced _ _ (Binary64.isOperand_display session.config.format value).1
      · exact .kept _
  | clear => exact .replaced _ _ (by simp [press, start, Entry.empty, AreVisible])
  | backspace => exact .backspace _ session.entry.isPrefix_backspace

end Session

/-! ### Prefixes that a press adds and keeps -/

section Texts

variable {text next front whole : Text} {op : Operator} {action : Action}

theorem append_symbol (front : Text) (op : Operator) :
    front ++ [' ', op.symbol] = front ++ [' '] ++ [op.symbol] := by
  simp

theorem append_operatorText (front : Text) (op : Operator) :
    front ++ Entry.operatorText op = front ++ [' ', op.symbol] ++ [' '] := by
  simp [Entry.operatorText]

/-- A new prefix with a space in it ends in the digit or in what is entered of an operator. -/
theorem TextStep.cases_new_prefix (hstep : TextStep text action next) (hspace : ' ' ∈ whole)
    (hafter : whole <+: next) (hbefore : ¬whole <+: text) :
    (∃ value ≤ 9, action = .digit value ∧ whole = text ++ [Nat.digitChar value.toNat]) ∨
      ∃ op, next = text ++ Entry.operatorText op ∧
        (whole = text ++ [' '] ∨ whole = text ++ [' ', op.symbol] ∨ whole = next) := by
  cases hstep with
  | digit value hvalue =>
    have hwhole := (List.prefix_concat_iff.mp hafter).resolve_right hbefore
    exact .inl ⟨value, hvalue, rfl, hwhole⟩
  | operator op =>
    rw [append_operatorText, List.prefix_concat_iff, append_symbol, List.prefix_concat_iff,
      List.prefix_concat_iff, ← append_symbol, ← append_operatorText] at hafter
    obtain hall | hsymbol | hone | hnone := hafter
    · exact .inr ⟨op, rfl, .inr (.inr hall)⟩
    · exact .inr ⟨op, rfl, .inr (.inl hsymbol)⟩
    · exact .inr ⟨op, rfl, .inl hone⟩
    · exact absurd hnone hbefore
  | backspace next hnext => exact absurd (hafter.trans hnext) hbefore
  | replaced action next hnext =>
    exact absurd rfl (ne_space_of_isBlank (hnext ' ' (hafter.mem hspace)))
  | kept => exact absurd hafter hbefore

/-- Where a space is left, only a backspace can have taken anything away. -/
theorem TextStep.backspace_or_isPrefix (hstep : TextStep text action next) (hspace : ' ' ∈ next)
    (hbefore : whole <+: text) : (action = .backspace ∧ next <+: text) ∨ whole <+: next := by
  cases hstep with
  | digit => exact .inr (hbefore.trans (List.prefix_append ..))
  | operator => exact .inr (hbefore.trans (List.prefix_append ..))
  | backspace next hnext => exact .inl ⟨rfl, hnext⟩
  | replaced action next hnext => exact absurd rfl (ne_space_of_isBlank (hnext ' ' hspace))
  | kept => exact .inr hbefore

/-! ### An operator without its second space -/

/-- The operator behind the front stands in the text, and no space behind it. -/
def IsBare (front : Text) (op : Operator) (text : Text) : Prop :=
  front ++ [' ', op.symbol] <+: text ∧ ¬front ++ Entry.operatorText op <+: text

theorem isBare_self (front : Text) (op : Operator) : IsBare front op (front ++ [' ', op.symbol]) := by
  refine ⟨List.prefix_rfl, ?_⟩
  intro hpadded
  have hlength := hpadded.length_le
  simp [Entry.operatorText] at hlength

theorem symbol_ne_space (op : Operator) : op.symbol ≠ ' ' :=
  ne_space_of_isBlank (isBlank_symbol op)

/-- No press enters an operator without its second space. -/
theorem TextStep.isPrefix_of_isBare (hstep : TextStep text action next) (hafter : IsBare front op next) :
    front ++ [' ', op.symbol] <+: text := by
  obtain ⟨hsymbol, hunpadded⟩ := hafter
  by_contra hbefore
  have hspace : ' ' ∈ front ++ [' ', op.symbol] := by simp
  rw [append_symbol] at hspace hsymbol hbefore
  obtain ⟨value, hvalue, _, hdigit⟩ | ⟨other, hnext, hwhole⟩ :=
    hstep.cases_new_prefix hspace hsymbol hbefore
  · have hnone := Line.isDigit_digitChar hvalue
    rw [← (List.append_singleton_inj.mp hdigit).2, isDigit_symbol] at hnone
    cases hnone
  · obtain hone | hpair | hall := hwhole
    · exact symbol_ne_space op (List.append_singleton_inj.mp hone).2
    · rw [append_operatorText, ← hpair, ← append_symbol, ← append_operatorText] at hnext
      exact hunpadded (hnext ▸ List.prefix_rfl)
    · rw [hnext, append_operatorText] at hall
      exact symbol_ne_space op (List.append_singleton_inj.mp hall).2

/-- Only a backspace on the space behind it makes an operator bare. -/
theorem TextStep.backspace_of_isBare (hstep : TextStep text action next) (hafter : IsBare front op next)
    (hbefore : ¬IsBare front op text) :
    action = .backspace ∧ front ++ Entry.operatorText op <+: text ∧ next = front ++ [' ', op.symbol] := by
  have hthere := hstep.isPrefix_of_isBare hafter
  have hpadded : front ++ Entry.operatorText op <+: text := by
    by_contra hnone
    exact hbefore ⟨hthere, hnone⟩
  obtain ⟨hsymbol, hunpadded⟩ := hafter
  have hspace : ' ' ∈ next := hsymbol.mem (by simp)
  obtain ⟨rfl, hnext⟩ := (hstep.backspace_or_isPrefix hspace hpadded).resolve_right hunpadded
  refine ⟨rfl, hpadded, ?_⟩
  -- A prefix of the padded operator with the symbol in it is that operator, with or without its space.
  have hshort := (List.prefix_or_prefix_of_prefix hnext hpadded).resolve_right hunpadded
  rw [append_operatorText, List.prefix_concat_iff, ← append_operatorText] at hshort
  have hfits := hshort.resolve_left fun hall => hunpadded (hall ▸ List.prefix_rfl)
  exact hfits.eq_of_length_le hsymbol.length_le

/-- Only a digit can come to stand right behind a symbol, and only while the symbol is the end. -/
theorem TextStep.digit_of_isPrefix {c : Char} (hstep : TextStep text action next) (hc : c ≠ ' ')
    (hafter : front ++ [' ', op.symbol, c] <+: next) (hbefore : ¬front ++ [' ', op.symbol, c] <+: text) :
    ∃ value ≤ 9, action = .digit value ∧ c = Nat.digitChar value.toNat ∧ text = front ++ [' ', op.symbol] := by
  have hsplit : front ++ [' ', op.symbol, c] = front ++ [' ', op.symbol] ++ [c] := by simp
  have hspace : ' ' ∈ front ++ [' ', op.symbol, c] := by simp
  obtain ⟨value, hvalue, haction, hdigit⟩ | ⟨other, hnext, hwhole⟩ :=
    hstep.cases_new_prefix hspace hafter hbefore
  · rw [hsplit] at hdigit
    obtain ⟨htext, hsame⟩ := List.append_singleton_inj.mp hdigit
    exact ⟨value, hvalue, haction, hsame, htext.symm⟩
  · exfalso
    rw [hsplit] at hwhole
    obtain hone | hpair | hall := hwhole
    · exact hc (List.append_singleton_inj.mp hone).2
    · rw [append_symbol text other, append_symbol] at hpair
      have hfront := (List.append_singleton_inj.mp hpair).1
      exact symbol_ne_space op (List.append_singleton_inj.mp hfront).2
    · rw [hnext, append_operatorText] at hall
      exact hc (List.append_singleton_inj.mp hall).2

end Texts

/-! ### What brought it about -/

namespace Session

/-- The text of the entry after the presses. -/
def textAfter (config : Config) (actions : List Action) : Text :=
  ((start config).pressAll actions).entry.text

/-- The presses behind a digit that is glued to an operator: a backspace that takes the second space of the
operator, others through which the operator stays without it, and the digit, which is entered while the
operator is the end of the entry and stays from then on. -/
structure GluedBy (config : Config) (front : Text) (op : Operator) (before between : List Action)
    (digit : UInt8) (later : List Action) : Prop where
  padded : front ++ Entry.operatorText op <+: textAfter config before
  space_taken : textAfter config (before ++ [.backspace]) = front ++ [' ', op.symbol]
  bare_between : ∀ kept, kept <+: between → IsBare front op (textAfter config (before ++ .backspace :: kept))
  operator_last : textAfter config (before ++ .backspace :: between) = front ++ [' ', op.symbol]
  digit_le_nine : digit ≤ 9
  digit_stays : ∀ kept, kept <+: later → front ++ [' ', op.symbol, Nat.digitChar digit.toNat] <+:
    textAfter config (before ++ .backspace :: between ++ .digit digit :: kept)

variable {config : Config} {actions : List Action} {front : Text} {op : Operator}

theorem textStep_textAfter (config : Config) (actions : List Action) (action : Action) :
    TextStep (textAfter config actions) action (textAfter config (actions ++ [action])) := by
  rw [textAfter, textAfter, pressAll_concat]
  exact textStep_press _ action

/-- What holds of the entry in the end, and not of an empty one, came to hold with some press and has held
since. -/
theorem exists_last_change (holds : Text → Prop) (hempty : ¬holds []) (hnow : holds (textAfter config actions)) :
    ∃ before action after, actions = before ++ action :: after ∧ ¬holds (textAfter config before) ∧
      ∀ kept, kept <+: after → holds (textAfter config (before ++ action :: kept)) := by
  induction actions using List.reverseRecOn with
  | nil => exact absurd hnow hempty
  | append_singleton actions action ih =>
    by_cases hearlier : holds (textAfter config actions)
    · obtain ⟨before, changing, after, rfl, hnot, hsince⟩ := ih hearlier
      refine ⟨before, changing, after ++ [action], by simp, hnot, ?_⟩
      intro kept hkept
      rcases List.prefix_concat_iff.mp hkept with rfl | hkept
      · simpa using hnow
      · exact hsince kept hkept
    · refine ⟨actions, action, [], rfl, hearlier, ?_⟩
      intro kept hkept
      rw [List.prefix_nil.mp hkept]
      exact hnow

theorem exists_backspace_of_isBare (hbare : IsBare front op (textAfter config actions)) :
    ∃ before between, actions = before ++ .backspace :: between ∧
      front ++ Entry.operatorText op <+: textAfter config before ∧
      textAfter config (before ++ [.backspace]) = front ++ [' ', op.symbol] ∧
      ∀ kept, kept <+: between → IsBare front op (textAfter config (before ++ .backspace :: kept)) := by
  have hempty : ¬IsBare front op [] := by simp [IsBare]
  obtain ⟨before, action, between, hactions, hbefore, hsince⟩ := exists_last_change (IsBare front op) hempty hbare
  have hstep := textStep_textAfter config before action
  obtain ⟨rfl, hpadded, htaken⟩ := hstep.backspace_of_isBare (hsince [] List.nil_prefix) hbefore
  exact ⟨before, between, hactions, hpadded, htaken, hsince⟩

theorem exists_gluedBy {c : Char} (hc : c ≠ ' ')
    (hglued : front ++ [' ', op.symbol, c] <+: textAfter config actions) :
    ∃ before between digit later,
      actions = before ++ .backspace :: between ++ .digit digit :: later ∧
        c = Nat.digitChar digit.toNat ∧ GluedBy config front op before between digit later := by
  have hempty : ¬front ++ [' ', op.symbol, c] <+: [] := by simp
  obtain ⟨entered, action, later, rfl, hnot, hsince⟩ :=
    exists_last_change (front ++ [' ', op.symbol, c] <+: ·) hempty hglued
  have hstep := textStep_textAfter config entered action
  obtain ⟨digit, hdigit, rfl, rfl, hlast⟩ := hstep.digit_of_isPrefix hc (hsince [] List.nil_prefix) hnot
  have hbare : IsBare front op (textAfter config entered) := hlast ▸ isBare_self front op
  obtain ⟨before, between, rfl, hpadded, htaken, hbetween⟩ := exists_backspace_of_isBare hbare
  exact ⟨before, between, digit, later, rfl, rfl, hpadded, htaken, hbetween, hlast, hdigit, hsince⟩

end Session

/-! ### Glued lexemes -/

/-- Behind the digits of a glued lexeme, where there is one in front of it, are such presses. -/
theorem Session.exists_gluedBy_of_split {config : Config} {actions : List Action} {left digits : Text}
    {op : Operator} {first after : List Text} (hdigits : digits.AreDigits) (hsome : digits ≠ [])
    (hsplit : Lexeme.split (textAfter config actions) = first ++ left :: (op.symbol :: digits) :: after) :
    ∃ before between digit later,
      actions = before ++ .backspace :: between ++ .digit digit :: later ∧
        digits.head? = some (Nat.digitChar digit.toNat) ∧
        GluedBy config (Lexeme.join (first ++ [left])) op before between digit later := by
  obtain ⟨c, rest, rfl⟩ := List.exists_cons_of_ne_nil hsome
  have hc : c ≠ ' ' := ne_space_of_isBlank (isBlank_of_isDigit (hdigits c (List.mem_cons_self ..)))
  rw [List.append_cons] at hsplit
  have hglued := Lexeme.isPrefix_of_split (by simp) hsplit (List.prefix_append [op.symbol, c] rest)
  rw [List.append_assoc] at hglued
  obtain ⟨before, between, digit, later, hactions, rfl, hby⟩ := exists_gluedBy hc hglued
  exact ⟨before, between, digit, later, hactions, rfl, hby⟩

end FourFunction
