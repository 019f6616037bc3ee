import Mathlib.Data.List.Chain
import FourFunction.Proofs.GluedDigits
import FourFunction.Proofs.OperandCounts
import FourFunction.Proofs.PlainSession

/-!
# Accepted entries

What an entry is like that equals finds a value for. Its lexemes are tokens and its numbers are one
more than its operators, but they alternate only if no two numbers meet. In an entry two numbers meet
only where digits are glued to an operator, and such digits are there only because a backspace took the
second space of the operator before they were entered.
-/

namespace FourFunction

open Text

variable {α : Type}

/-! ### Numbers apart -/

namespace Token

/-- Not both numbers. -/
def Apart (left right : Token α) : Prop :=
  ¬(left.isNumber = true ∧ right.isNumber = true)

theorem numberCount_cons_number (text : Text) (value : α) (tokens : List (Token α)) :
    numberCount (.number text value :: tokens) = numberCount tokens + 1 := by
  rw [numberCount, List.countP_cons_of_pos rfl, ← numberCount]

theorem numberCount_cons_operator (op : Operator) (tokens : List (Token α)) :
    numberCount (.operator op :: tokens) = numberCount tokens := by
  rw [numberCount, List.countP_cons_of_neg Bool.false_ne_true, ← numberCount]

theorem operatorCount_cons_number (text : Text) (value : α) (tokens : List (Token α)) :
    operatorCount (.number text value :: tokens) = operatorCount tokens := by
  simp [operatorCount, operators, operator?, List.filterMap_cons]

theorem operatorCount_cons_operator (op : Operator) (tokens : List (Token α)) :
    operatorCount (.operator op :: tokens) = operatorCount tokens + 1 := by
  simp [operatorCount, operators, operator?]

theorem numberCount_le_of_apart : ∀ {tokens : List (Token α)}, tokens.IsChain Apart →
    numberCount tokens ≤ operatorCount tokens + 1
  | [], _ => Nat.zero_le _
  | [.number text value], _ => by
    rw [numberCount_cons_number, operatorCount_cons_number]
    exact Nat.le_refl _
  | .operator op :: rest, hapart => by
    have hrest : numberCount rest ≤ operatorCount rest + 1 := numberCount_le_of_apart hapart.tail
    rw [numberCount_cons_operator, operatorCount_cons_operator]
    omega
  | .number text value :: .operator op :: rest, hapart => by
    have hrest : numberCount rest ≤ operatorCount rest + 1 := numberCount_le_of_apart hapart.tail.tail
    rw [numberCount_cons_number, numberCount_cons_operator, operatorCount_cons_number,
      operatorCount_cons_operator]
    omega
  | .number _ _ :: .number _ _ :: _, hapart => absurd ⟨rfl, rfl⟩ (List.isChain_cons_cons.mp hapart).1

end Token

open Token

namespace Chain

/-- Tokens with numbers apart and one number more than operators alternate. -/
theorem exists_tokens_eq : ∀ {tokens : List (Token α)},
    numberCount tokens = operatorCount tokens + 1 → tokens.IsChain Apart →
    ∃ chain : Chain α, tokens = chain.tokens
  | [], hcounts, _ => by cases hcounts
  | [.number text value], _, _ => ⟨⟨⟨text, value⟩, []⟩, rfl⟩
  | .operator op :: rest, hcounts, hapart => by
    have hrest : numberCount rest ≤ operatorCount rest + 1 := numberCount_le_of_apart hapart.tail
    rw [numberCount_cons_operator, operatorCount_cons_operator] at hcounts
    omega
  | .number text value :: .operator op :: rest, hcounts, hapart => by
    have hrest : numberCount rest = operatorCount rest + 1 := by
      rw [numberCount_cons_number, numberCount_cons_operator, operatorCount_cons_number,
        operatorCount_cons_operator] at hcounts
      omega
    obtain ⟨chain, rfl⟩ := exists_tokens_eq hrest hapart.tail.tail
    exact ⟨⟨⟨text, value⟩, (op, chain.first) :: chain.links⟩, rfl⟩
  | .number _ _ :: .number _ _ :: _, _, hapart => absurd ⟨rfl, rfl⟩ (List.isChain_cons_cons.mp hapart).1

theorem apart_tokens (first : Operand α) (links : List (Operator × Operand α)) :
    (first.token :: linkTokens links).IsChain Apart := by
  induction links generalizing first with
  | nil => exact List.isChain_singleton _
  | cons link links ih =>
    have hbefore : Apart first.token (.operator link.1) := fun hboth => Bool.false_ne_true hboth.2
    have hbehind : Apart (.operator link.1) link.2.token := fun hboth => Bool.false_ne_true hboth.1
    exact List.isChain_cons_cons.mpr ⟨hbefore, List.isChain_cons_cons.mpr ⟨hbehind, ih link.2⟩⟩

end Chain

/-! ### Well-formed texts -/

/-- Numbers and operators alternate, from a number to a number. -/
def IsWellFormed (text : Text) : Prop :=
  ∃ chain : Chain Binary64, chain.IsSpelledBy text

def IsNumeral (lexeme : Text) : Prop :=
  (finiteValue? lexeme).isSome = true

/-- A number stands right behind another one, and it is digits glued to an operator. -/
def HasGluedNumber (text : Text) : Prop :=
  ∃ (before after : List Text) (left : Text) (op : Operator) (digits : Text),
    Lexeme.split text = before ++ left :: (op.symbol :: digits) :: after ∧
      IsNumeral left ∧ IsNumeral (op.symbol :: digits) ∧ digits.AreDigits

theorem apart_iff {text : Text} {tokens : List (Token Binary64)} (htokens : ofText text = .ok tokens) :
    tokens.IsChain Apart ↔
      (Lexeme.split text).IsChain fun left right => ¬(IsNumeral left ∧ IsNumeral right) := by
  obtain ⟨hlexemes, hread⟩ := ofText_eq_ok_iff.mp htokens
  rw [hlexemes, List.isChain_map]
  apply List.IsChain.iff_of_mem_imp
  intro left right hleft hright
  rw [Apart, IsNumeral, IsNumeral, isNumber_of_ofLexeme (hread left hleft),
    isNumber_of_ofLexeme (hread right hright)]

theorem isWellFormed_iff_apart {text : Text} {tokens : List (Token Binary64)}
    (htokens : ofText text = .ok tokens) (hcounts : numberCount tokens = operatorCount tokens + 1) :
    IsWellFormed text ↔ tokens.IsChain Apart := by
  constructor
  · intro hformed
    obtain ⟨chain, hspelled⟩ := hformed
    have hsame := (Chain.isSpelledBy_iff.mp hspelled).symm.trans htokens
    rw [← Except.ok.inj hsame]
    exact Chain.apart_tokens chain.first chain.links
  · intro hapart
    obtain ⟨chain, rfl⟩ := Chain.exists_tokens_eq hcounts hapart
    exact ⟨chain, Chain.isSpelledBy_iff.mpr htokens⟩

/-! ### Numbers that meet in a line -/

/-- If two numbers meet, the second is digits glued to an operator. -/
def MeetsGlued (left right : Text) : Prop :=
  IsNumeral left → IsNumeral right →
    ∃ (op : Operator) (digits : Text), digits.AreDigits ∧ right = op.symbol :: digits

theorem not_isNumeral_symbol (op : Operator) : ¬IsNumeral [op.symbol] := by
  rw [IsNumeral, finiteValue?_symbol]
  exact Bool.false_ne_true

theorem meetsGlued_symbol_left (op : Operator) (right : Text) : MeetsGlued [op.symbol] right :=
  fun hleft _ => absurd hleft (not_isNumeral_symbol op)

theorem meetsGlued_symbol_right (op : Operator) (left : Text) : MeetsGlued left [op.symbol] :=
  fun _ hright => absurd hright (not_isNumeral_symbol op)

namespace Segment

theorem meetsGlued_head_lexemes {segment : Segment} (hvalid : segment.IsValid) (left : Text) :
    ∀ right ∈ segment.lexemes.head?, MeetsGlued left right := by
  intro right hright
  rw [lexemes] at hright
  split at hright
  · obtain rfl := Option.some.inj hright
    exact fun _ _ => ⟨segment.op, segment.digits, hvalid.1, rfl⟩
  · obtain rfl := Option.some.inj hright
    exact meetsGlued_symbol_right segment.op left

theorem isChain_meetsGlued_lexemes (segment : Segment) : segment.lexemes.IsChain MeetsGlued := by
  rw [lexemes]
  split
  · exact List.isChain_singleton _
  · exact List.isChain_pair.mpr (meetsGlued_symbol_left segment.op segment.digits)

theorem isChain_meetsGlued_lexemesOf (first : Text) {segments : List Segment}
    (hvalid : ∀ segment ∈ segments, segment.IsValid) :
    (first :: lexemesOf segments).IsChain MeetsGlued := by
  induction segments with
  | nil => exact List.isChain_singleton _
  | cons segment older ih =>
    obtain ⟨hsegment, holder⟩ := List.forall_mem_cons.mp hvalid
    have hhead : ∀ left ∈ (first :: lexemesOf older).getLast?, ∀ right ∈ segment.lexemes.head?,
        MeetsGlued left right := fun left _ => meetsGlued_head_lexemes hsegment left
    rw [lexemesOf, ← List.cons_append]
    exact (ih holder).append segment.isChain_meetsGlued_lexemes hhead

end Segment

namespace Line

theorem isChain_meetsGlued {line : Line} (hvalid : line.IsValid) : line.lexemes.IsChain MeetsGlued := by
  have hbody := Segment.isChain_meetsGlued_lexemesOf line.first hvalid.segments_valid
  rw [lexemes]
  cases line.trailing with
  | none => simpa [trailingLexemes] using hbody
  | some op =>
    have hbehind : [[op.symbol], []].IsChain MeetsGlued :=
      List.isChain_pair.mpr (meetsGlued_symbol_left op [])
    apply hbody.append hbehind
    intro left _ right hright
    obtain rfl := Option.some.inj hright
    exact meetsGlued_symbol_right op left

theorem apart_iff_not_hasGluedNumber {line : Line} (hvalid : line.IsValid) :
    ((Lexeme.split line.text).IsChain fun left right => ¬(IsNumeral left ∧ IsNumeral right)) ↔
      ¬HasGluedNumber line.text := by
  have hmeet := List.isChain_iff_forall_rel_of_append_cons_cons.mp (isChain_meetsGlued hvalid)
  rw [← split_text hvalid] at hmeet
  rw [List.isChain_iff_forall_rel_of_append_cons_cons]
  constructor
  · intro hapart hglued
    obtain ⟨before, after, left, op, digits, hsplit, hleft, hright, _⟩ := hglued
    exact hapart hsplit ⟨hleft, hright⟩
  · intro hnone left right before after hsplit hboth
    obtain ⟨op, digits, hdigits, rfl⟩ := hmeet hsplit hboth.1 hboth.2
    exact hnone ⟨before, after, left, op, digits, hsplit, hboth.1, hboth.2, hdigits⟩

end Line

/-! ### Accepted entries -/

theorem exists_tokens_of_calculate {text : Text} {value : Binary64}
    (hvalue : calculate text = .ok value) :
    ∃ tokens, ofText text = .ok tokens ∧ numberCount tokens = operatorCount tokens + 1 := by
  obtain ⟨tokens, htokens, hrun⟩ := calculate_eq_ok_iff.mp hvalue
  have hverdict := (exists_value_iff Operator.apply tokens).mp ⟨value, hrun⟩
  exact ⟨tokens, htokens, counts_of_countVerdict hverdict⟩

/-- An entry that equals finds a value for has one number more than operators. It is well-formed just if
no number in it is digits glued to an operator behind another number, and always if no backspace was
pressed. Digits glued to an operator behind anything were entered after a backspace had taken the second
space of that operator. -/
theorem accepted_entry (config : Config) (actions : List Action) {shown : Text}
    (houtcome : ((Session.start config).pressAll actions).outcome = .ok shown) :
    let text := ((Session.start config).pressAll actions).entry.text
    (∃ tokens, ofText text = .ok tokens ∧ numberCount tokens = operatorCount tokens + 1) ∧
      (IsWellFormed text ↔ ¬HasGluedNumber text) ∧
      (Action.backspace ∉ actions → IsWellFormed text) ∧
      ∀ (first after : List Text) (left : Text) (op : Operator) (digits : Text),
        Lexeme.split text = first ++ left :: (op.symbol :: digits) :: after →
        digits.AreDigits → digits ≠ [] →
        ∃ before between digit later,
          actions = before ++ .backspace :: between ++ .digit digit :: later ∧
            digits.head? = some (Nat.digitChar digit.toNat) ∧
            Session.GluedBy config (Lexeme.join (first ++ [left])) op before between digit later := by
  intro text
  obtain ⟨value, (hvalue : calculate text = .ok value), _⟩ := Session.outcome_eq_ok_iff.mp houtcome
  obtain ⟨tokens, htokens, hcounts⟩ := exists_tokens_of_calculate hvalue
  refine ⟨⟨tokens, htokens, hcounts⟩, ?_, ?_, ?_⟩
  · obtain ⟨line, hvalid, hentry⟩ := Session.exists_valid_line_pressAll config actions
    have htext : text = line.text := congrArg Entry.text hentry
    rw [isWellFormed_iff_apart htokens hcounts, apart_iff htokens, htext]
    exact Line.apart_iff_not_hasGluedNumber hvalid
  · intro hactions
    exact Session.exists_chain_of_outcome config hactions houtcome
  · intro first after left op digits hsplit hdigits hsome
    exact Session.exists_gluedBy_of_split hdigits hsome hsplit

theorem split_glued : Lexeme.split ['1', ' ', '+', '2', ' ', '+', ' ', '*', ' ', '3'] =
    [['1'], ['+', '2'], ['+'], ['*'], ['3']] := by
  decide +kernel

theorem not_isWellFormed_glued : ¬IsWellFormed ['1', ' ', '+', '2', ' ', '+', ' ', '*', ' ', '3'] := by
  intro hformed
  obtain ⟨⟨first, links⟩, hspelled, _⟩ := hformed
  replace hspelled := split_glued.symm.trans hspelled
  cases links with
  | nil => simp [Chain.tokens, Chain.linkTokens] at hspelled
  | cons link links =>
    have hsecond : ['+', '2'] = [link.1.symbol] := (List.cons.inj (List.cons.inj hspelled).2).1
    simp at hsecond

/-- One plus two, well-formed, and `1 +2 + * 3`, in which the first backspace and the digit behind it left
`+2`. Both are accepted. -/
theorem accepted_entry_both :
    let plain := (Session.start {}).pressAll [.digit 1, .operator .add, .digit 2]
    let actions : List Action := [.digit 1, .operator .add, .digit 2, .backspace, .digit 2, .operator .add,
      .digit 5, .backspace, .operator .multiply, .digit 3]
    let glued := (Session.start {}).pressAll actions
    (plain.outcome = .ok ['3', '.', '0'] ∧ IsWellFormed plain.entry.text) ∧
      glued.outcome = .ok ['7', '.', '0'] ∧ HasGluedNumber glued.entry.text ∧
      ∃ before between digit later,
        actions = before ++ .backspace :: between ++ .digit digit :: later ∧
          Nat.digitChar digit.toNat = '2' ∧ Session.GluedBy {} ['1'] .add before between digit later := by
  intro plain actions glued
  have hplain : plain.outcome = .ok ['3', '.', '0'] := by decide +kernel
  have hglued : glued.outcome = .ok ['7', '.', '0'] := by decide +kernel
  have htext : glued.entry.text = ['1', ' ', '+', '2', ' ', '+', ' ', '*', ' ', '3'] := by decide +kernel
  have hsplit : Lexeme.split glued.entry.text = [['1'], ['+', '2'], ['+'], ['*'], ['3']] :=
    (congrArg Lexeme.split htext).trans split_glued
  obtain ⟨_, hformed, _, hpresses⟩ := accepted_entry {} actions hglued
  have hmeets : HasGluedNumber glued.entry.text := by
    by_contra hnone
    exact not_isWellFormed_glued (htext ▸ hformed.mpr hnone)
  obtain ⟨before, between, digit, later, hactions, hdigit, hby⟩ :=
    hpresses [] [['+'], ['*'], ['3']] ['1'] .add ['2'] hsplit (by decide) (by decide)
  exact ⟨⟨hplain, (accepted_entry {} _ hplain).2.2.1 (by decide)⟩, hglued, hmeets, before, between, digit,
    later, hactions, (Option.some.inj hdigit).symm, hby⟩

/-- The entry is `1 +2 + * 3`, and it is accepted. -/
theorem accepted_entry_glued :
    let session := (Session.start {}).pressAll [.digit 1, .operator .add, .digit 2, .backspace, .digit 2,
      .operator .add, .digit 5, .backspace, .operator .multiply, .digit 3]
    session.outcome = .ok ['7', '.', '0'] ∧ ¬IsWellFormed session.entry.text := by
  intro session
  have htext : session.entry.text = ['1', ' ', '+', '2', ' ', '+', ' ', '*', ' ', '3'] := by decide +kernel
  refine ⟨by decide +kernel, ?_⟩
  rw [htext]
  exact not_isWellFormed_glued

end FourFunction
