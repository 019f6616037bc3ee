import FourFunction.Proofs.ChainTree
import FourFunction.Proofs.Lexemes
import FourFunction.Session

/-!
# Evaluation in two tiers

A well-formed expression is evaluated to its two-tier value. The first half is about tokens and holds
for every meaning of the operators, so no operation is reassociated; the second half is about texts
whose lexemes are those of a chain.
-/

namespace FourFunction

namespace Chain

variable {α : Type}

def operands (chain : Chain α) : List (Operand α) :=
  chain.first :: chain.links.map Prod.snd

/-- The lexemes of the text are the spellings of the chain, and its operands are finite numerals with
their values. -/
def IsSpelledBy (chain : Chain Binary64) (text : Text) : Prop :=
  Lexeme.split text = chain.tokens.map Token.text ∧
    ∀ operand ∈ chain.operands, Token.finiteValue? operand.text = some operand.value

theorem mem_tokens_iff {chain : Chain α} {token : Token α} :
    token ∈ chain.tokens ↔
      (∃ link ∈ chain.links, token = .operator link.1) ∨
        ∃ operand ∈ chain.operands, token = operand.token := by
  simp only [tokens, linkTokens_eq, operands, List.mem_cons, List.mem_flatMap, List.mem_map,
    List.not_mem_nil, or_false]
  constructor
  · intro htoken
    rcases htoken with rfl | ⟨link, hlink, rfl | rfl⟩
    · exact .inr ⟨chain.first, .inl rfl, rfl⟩
    · exact .inl ⟨link, hlink, rfl⟩
    · exact .inr ⟨link.2, .inr ⟨link, hlink, rfl⟩, rfl⟩
  · intro hsource
    rcases hsource with ⟨link, hlink, rfl⟩ | ⟨operand, rfl | ⟨link, hlink, rfl⟩, rfl⟩
    · exact .inr ⟨link, hlink, .inl rfl⟩
    · exact .inl rfl
    · exact .inr ⟨link, hlink, .inr rfl⟩

theorem isSpelledBy_iff {chain : Chain Binary64} {text : Text} :
    chain.IsSpelledBy text ↔ Token.ofText text = .ok chain.tokens := by
  rw [Token.ofText_eq_ok_iff, IsSpelledBy]
  apply and_congr_right
  intro _
  constructor
  · intro hoperands token htoken
    rcases mem_tokens_iff.mp htoken with ⟨link, _, rfl⟩ | ⟨operand, hoperand, rfl⟩
    · exact Token.ofLexeme_symbol link.1
    · exact Token.ofLexeme_of_finiteValue? (hoperands operand hoperand)
  · intro htokens operand hoperand
    have htoken := mem_tokens_iff.mpr (.inr ⟨operand, hoperand, rfl⟩)
    exact Token.finiteValue?_of_ofLexeme (htokens _ htoken)

theorem calculate_of_isSpelledBy {chain : Chain Binary64} {text : Text}
    (hspelled : chain.IsSpelledBy text) : calculate text = .ok (chain.value Operator.apply) := by
  rw [calculate, reorderText, isSpelledBy_iff.mp hspelled]
  exact evaluate_reorder_tokens Operator.apply chain

end Chain

theorem shownValue_of_calculate {config : Config} {text : Text} {value : Binary64}
    (hvalue : calculate text = .ok value) :
    shownValue config text = .ok (value.display config.format) := by
  rw [shownValue, hvalue]
  rfl

/-- A chain has its two-tier value: as a list of tokens for every meaning of the operators, and as a
text with the operators of the calculator. -/
theorem two_tier_evaluation :
    (∀ {α : Type} (apply : Operator → α → α → α) (chain : Chain α),
      evaluate apply (reorder chain.tokens) = .ok (chain.value apply)) ∧
    ∀ (chain : Chain Binary64) (text : Text), chain.IsSpelledBy text →
      calculate text = .ok (chain.value Operator.apply) ∧
      ∀ config, shownValue config text = .ok ((chain.value Operator.apply).display config.format) := by
  constructor
  · intro α apply chain
    exact evaluate_reorder_tokens apply chain
  · intro chain text hspelled
    have hvalue := Chain.calculate_of_isSpelledBy hspelled
    exact ⟨hvalue, fun config => shownValue_of_calculate hvalue⟩

theorem two_tier_evaluation_mixed :
    let operand (lexeme : Text) : Operand Binary64 := ⟨lexeme, (Token.finiteValue? lexeme).getD .nan⟩
    let chain : Chain Binary64 :=
      ⟨operand ['8'], [(.subtract, operand ['6']), (.divide, operand ['3']), (.multiply, operand ['2'])]⟩
    chain.IsSpelledBy "8 - 6 / 3 * 2".toList ∧
      shownValue {} "8 - 6 / 3 * 2".toList = .ok ((chain.value Operator.apply).display .decimal) := by
  intro operand chain
  have hspelled : chain.IsSpelledBy "8 - 6 / 3 * 2".toList := by
    constructor <;> decide +kernel
  exact ⟨hspelled, (two_tier_evaluation.2 chain _ hspelled).2 {}⟩

end FourFunction
