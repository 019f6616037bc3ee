import FourFunction.Proofs.Lexemes
import FourFunction.Proofs.LiteralGrammar
import FourFunction.Proofs.NearestNumber

/-!
# What a lexeme is

Every lexeme is an operator symbol, or a numeral within the bound of overflow, or an error that names it.
The numerals are those of the grammar, their values are the rationals that their digits and exponents
denote, and the number of a token is the nearest to the value, with the sign that is written.
-/

namespace FourFunction

open Binary64

namespace Literal

/-! ### The number of a literal -/

/-- The rational that the literal denotes. -/
def value (literal : Literal) : ℚ :=
  withSign (literal.sign = some .minus)
    ((Nat.ofDigitChars 10 literal.whole 0 + fractionValue (literal.fraction.getD [])) *
      10 ^ (literal.scale.map Scale.exponent).getD 0)

theorem value_eq (literal : Literal) :
    literal.value = withSign (literal.sign = some .minus) literal.magnitude.value := by
  rw [value, value_magnitude]

theorem abs_value (literal : Literal) : |literal.value| = literal.magnitude.value := by
  rw [value_eq, abs_withSign _ literal.magnitude.value_nonneg]

theorem isFinite_nearest_iff (literal : Literal) :
    literal.nearest.isFinite = true ↔ |literal.value| < overflowBound := by
  rw [nearest, isFinite_ofRank, abs_value, Decimal.rank_lt_infinityRank_iff]

theorem isNearest_nearest {literal : Literal} (hbound : |literal.value| < overflowBound) :
    literal.nearest.IsNearest literal.value := by
  rw [abs_value] at hbound
  rw [nearest, value_eq]
  exact Decimal.isNearest_ofRank_rank _ hbound

theorem isNegative_nearest (literal : Literal) :
    literal.nearest.isNegative = decide (literal.sign = some .minus) := by
  rw [nearest, ofRank]
  split <;> rfl

/-- Of the numbers with the literal's sign, its number is the nearest. -/
theorem eq_nearest {literal : Literal} {number : Binary64} (hbound : |literal.value| < overflowBound)
    (hnearest : number.IsNearest literal.value)
    (hsign : number.isNegative = decide (literal.sign = some .minus)) : number = literal.nearest :=
  hnearest.unique (isNearest_nearest hbound) (hsign.trans literal.isNegative_nearest.symm)

end Literal

namespace Token

/-! ### Lexemes that are numbers -/

theorem finiteValue?_eq_some_iff {lexeme : Text} {number : Binary64} :
    finiteValue? lexeme = some number ↔
      ∃ literal : Literal, literal.Spells lexeme ∧ |literal.value| < overflowBound ∧
        number.IsNearest literal.value ∧ number.isNegative = decide (literal.sign = some .minus) := by
  rw [finiteValue?, Option.filter_eq_some_iff]
  constructor
  · intro hnumber
    obtain ⟨hread, hfinite⟩ := hnumber
    obtain ⟨literal, hliteral, rfl⟩ := Option.map_eq_some_iff.mp hread
    have hbound := literal.isFinite_nearest_iff.mp hfinite
    exact ⟨literal, Literal.ofText?_eq_some_iff.mp hliteral, hbound, Literal.isNearest_nearest hbound,
      literal.isNegative_nearest⟩
  · intro hspelled
    obtain ⟨literal, hspells, hbound, hnearest, hsign⟩ := hspelled
    rw [Literal.eq_nearest hbound hnearest hsign, Literal.ofText?_eq_some_iff.mpr hspells]
    exact ⟨rfl, literal.isFinite_nearest_iff.mpr hbound⟩

theorem finiteValue?_eq_none_iff {lexeme : Text} :
    finiteValue? lexeme = none ↔
      ∀ literal : Literal, literal.Spells lexeme → overflowBound ≤ |literal.value| := by
  constructor
  · intro hnone literal hspells
    by_contra hbound
    have hsome := finiteValue?_eq_some_iff.mpr ⟨literal, hspells, not_le.mp hbound,
      Literal.isNearest_nearest (not_le.mp hbound), literal.isNegative_nearest⟩
    rw [hnone] at hsome
    cases hsome
  · intro hlarge
    rw [Option.eq_none_iff_forall_ne_some]
    intro number hnumber
    obtain ⟨literal, hspells, hbound, _⟩ := finiteValue?_eq_some_iff.mp hnumber
    exact absurd (hlarge literal hspells) (not_le.mpr hbound)

/-! ### The three classes -/

theorem ofLexeme_eq_operator_iff {lexeme : Text} {op : Operator} :
    ofLexeme lexeme = .ok (.operator op) ↔ lexeme = [op.symbol] := by
  constructor
  · intro hread
    cases hread ▸ reading_ofLexeme lexeme with
    | operator _ hlexeme => exact hlexeme
  · rintro rfl
    exact ofLexeme_symbol op

theorem ofLexeme_eq_number_iff {lexeme text : Text} {number : Binary64} :
    ofLexeme lexeme = .ok (.number text number) ↔ text = lexeme ∧ finiteValue? lexeme = some number := by
  constructor
  · intro hread
    exact ⟨text_of_ofLexeme hread, finiteValue?_of_ofLexeme hread⟩
  · intro hnumber
    obtain ⟨rfl, hvalue⟩ := hnumber
    exact ofLexeme_of_finiteValue? hvalue

theorem ofLexeme_eq_error_iff {lexeme : Text} {error : CalculationError} :
    ofLexeme lexeme = .error error ↔
      error = .malformed lexeme ∧ (∀ op : Operator, lexeme ≠ [op.symbol]) ∧ finiteValue? lexeme = none := by
  constructor
  · intro hread
    have hsymbol : ∀ op : Operator, lexeme ≠ [op.symbol] := by
      rintro op rfl
      rw [ofLexeme_symbol] at hread
      cases hread
    cases hread ▸ reading_ofLexeme lexeme with
    | malformed hvalue => exact ⟨rfl, hsymbol, hvalue⟩
  · intro hmalformed
    obtain ⟨rfl, hsymbol, hvalue⟩ := hmalformed
    cases hread : ofLexeme lexeme with
    | error error =>
      cases hread ▸ reading_ofLexeme lexeme with
      | malformed _ => rfl
    | ok token =>
      cases hread ▸ reading_ofLexeme lexeme with
      | operator op hlexeme => exact absurd hlexeme (hsymbol op)
      | number value hsome =>
        rw [hvalue] at hsome
        cases hsome

end Token

/-- A lexeme is an operator just if it is its symbol. It is a number, with the lexeme as its text, just if
it is a numeral whose value lies within the bound of overflow, and the number is then the nearest to the
value, with the sign that is written. In every other case the lexeme is an error that names it. The empty
lexeme and the words are such cases, for every numeral has a digit. -/
theorem lexeme_classification (lexeme : Text) :
    (∀ op : Operator, Token.ofLexeme lexeme = .ok (.operator op) ↔ lexeme = [op.symbol]) ∧
    (∀ text number, Token.ofLexeme lexeme = .ok (.number text number) ↔
      text = lexeme ∧ ∃ literal : Literal, literal.Spells lexeme ∧ |literal.value| < overflowBound ∧
        number.IsNearest literal.value ∧ number.isNegative = decide (literal.sign = some .minus)) ∧
    (∀ error, Token.ofLexeme lexeme = .error error ↔
      error = .malformed lexeme ∧ (∀ op : Operator, lexeme ≠ [op.symbol]) ∧
        ∀ literal : Literal, literal.Spells lexeme → overflowBound ≤ |literal.value|) ∧
    ((∀ op : Operator, lexeme ≠ [op.symbol]) → (∀ c ∈ lexeme, c.isDigit = false) →
      Token.ofLexeme lexeme = .error (.malformed lexeme)) := by
  refine ⟨fun _ => Token.ofLexeme_eq_operator_iff, ?_, ?_, ?_⟩
  · intro text number
    rw [Token.ofLexeme_eq_number_iff, Token.finiteValue?_eq_some_iff]
  · intro error
    rw [Token.ofLexeme_eq_error_iff, Token.finiteValue?_eq_none_iff]
  · intro hsymbol hdigit
    rw [Token.ofLexeme_eq_error_iff, Token.finiteValue?_eq_none_iff]
    refine ⟨rfl, hsymbol, fun literal hspells => ?_⟩
    obtain ⟨c, hc, hcDigit⟩ := hspells.exists_digit
    rw [hdigit c hc] at hcDigit
    cases hcDigit

/-- A value halfway between two numbers, of which the even one is `2 ^ 53`, a value that vanishes with its
sign, one that is too large, and a word without digits. -/
theorem lexeme_classification_borders :
    let halfway := "9007199254740993".toList
    let even := ofRank false (1076 * blockSize)
    let vanishing := "-1e-400".toList
    let large := "+1e400".toList
    let word := "-Infinity".toList
    (Token.ofLexeme halfway = .ok (.number halfway even) ∧
      ∃ literal : Literal, literal.Spells halfway ∧ even.IsNearest literal.value) ∧
    (Token.ofLexeme vanishing = .ok (.number vanishing (zero true)) ∧
      ∃ literal : Literal, literal.Spells vanishing ∧ (zero true).IsNearest literal.value) ∧
    (∀ literal : Literal, literal.Spells large → overflowBound ≤ |literal.value|) ∧
    Token.ofLexeme word = .error (.malformed word) := by
  intro halfway even vanishing large word
  have hhalfway : Token.ofLexeme halfway = .ok (.number halfway even) := by decide +kernel
  have hvanishing : Token.ofLexeme vanishing = .ok (.number vanishing (zero true)) := by decide +kernel
  have hlarge : Token.ofLexeme large = .error (.malformed large) := by decide +kernel
  have hsymbol : ∀ op : Operator, word ≠ [op.symbol] := fun op => by cases op <;> decide
  have hnone : word.any Char.isDigit = false := by decide
  have hdigit : ∀ c ∈ word, c.isDigit = false := by
    simpa only [List.any_eq_false, Bool.not_eq_true] using hnone
  obtain ⟨_, first, hfirst, _, hfirstNearest, _⟩ := ((lexeme_classification halfway).2.1 _ _).mp hhalfway
  obtain ⟨_, second, hsecond, _, hsecondNearest, _⟩ :=
    ((lexeme_classification vanishing).2.1 _ _).mp hvanishing
  exact ⟨⟨hhalfway, first, hfirst, hfirstNearest⟩, ⟨hvanishing, second, hsecond, hsecondNearest⟩,
    (((lexeme_classification large).2.2.1 _).mp hlarge).2.2,
    (lexeme_classification word).2.2.2 hsymbol hdigit⟩

end FourFunction
