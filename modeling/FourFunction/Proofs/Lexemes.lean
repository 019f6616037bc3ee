import FourFunction.Expression.Calculation

/-!
# Lexemes and their tokens

Reading a text as tokens, seen from both ends: which token a lexeme is, and what the tokens of a whole
text tell of its lexemes. A token keeps the lexeme it was read from, so the lexemes of a text are the
spellings of its tokens.
-/

namespace FourFunction

namespace Operator

theorem ofSymbol?_symbol (op : Operator) : ofSymbol? op.symbol = some op := by
  cases op <;> decide

theorem ofText?_eq_some_iff {text : Text} {op : Operator} :
    ofText? text = some op ↔ text = [op.symbol] := by
  constructor
  · intro htext
    match text, htext with
    | [c], hsymbol =>
      change all.find? (·.symbol == c) = some op at hsymbol
      have hfound := List.find?_some hsymbol
      rw [beq_iff_eq.mp hfound]
  · intro htext
    rw [htext]
    exact ofSymbol?_symbol op

end Operator

namespace Token

/-! ### One lexeme -/

theorem ofLexeme_symbol (op : Operator) : ofLexeme [op.symbol] = .ok (.operator op) := by
  rw [ofLexeme, Operator.ofText?_eq_some_iff.mpr rfl]

/-- A lone operator symbol has no digits. -/
theorem finiteValue?_symbol (op : Operator) : finiteValue? [op.symbol] = none := by
  cases op <;> decide

theorem ofLexeme_of_finiteValue? {lexeme : Text} {value : Binary64}
    (hvalue : finiteValue? lexeme = some value) : ofLexeme lexeme = .ok (.number lexeme value) := by
  have hop : Operator.ofText? lexeme = none := by
    rw [Option.eq_none_iff_forall_ne_some]
    intro op hop
    rw [Operator.ofText?_eq_some_iff.mp hop, finiteValue?_symbol] at hvalue
    cases hvalue
  rw [ofLexeme, hop, hvalue]

/-- What each answer for a lexeme says of it. -/
inductive Reading (lexeme : Text) : Except CalculationError (Token Binary64) → Prop
  | operator (op : Operator) (hlexeme : lexeme = [op.symbol]) : Reading lexeme (.ok (.operator op))
  | number (value : Binary64) (hvalue : finiteValue? lexeme = some value) :
      Reading lexeme (.ok (.number lexeme value))
  | malformed (hvalue : finiteValue? lexeme = none) : Reading lexeme (.error (.malformed lexeme))

theorem reading_ofLexeme (lexeme : Text) : Reading lexeme (ofLexeme lexeme) := by
  cases hop : Operator.ofText? lexeme with
  | some op =>
    have hlexeme := Operator.ofText?_eq_some_iff.mp hop
    rw [hlexeme, ofLexeme_symbol]
    exact .operator op rfl
  | none =>
    cases hvalue : finiteValue? lexeme with
    | some value =>
      rw [ofLexeme_of_finiteValue? hvalue]
      exact .number value hvalue
    | none =>
      rw [ofLexeme, hop, hvalue]
      exact .malformed hvalue

theorem text_of_ofLexeme {lexeme : Text} {token : Token Binary64}
    (htoken : ofLexeme lexeme = .ok token) : token.text = lexeme := by
  cases htoken ▸ reading_ofLexeme lexeme with
  | operator op hlexeme => exact hlexeme.symm
  | number value _ => rfl

theorem isNumber_of_ofLexeme {lexeme : Text} {token : Token Binary64}
    (htoken : ofLexeme lexeme = .ok token) : token.isNumber = (finiteValue? lexeme).isSome := by
  cases htoken ▸ reading_ofLexeme lexeme with
  | operator op hlexeme =>
    rw [hlexeme, finiteValue?_symbol]
    rfl
  | number value hvalue =>
    rw [hvalue]
    rfl

theorem finiteValue?_of_ofLexeme {lexeme text : Text} {value : Binary64}
    (htoken : ofLexeme lexeme = .ok (.number text value)) : finiteValue? lexeme = some value := by
  cases htoken ▸ reading_ofLexeme lexeme with
  | number value hvalue => exact hvalue

/-! ### All lexemes of a text -/

private theorem mapM_cons_eq_ok_iff {lexeme : Text} {lexemes : List Text}
    {tokens : List (Token Binary64)} :
    (lexeme :: lexemes).mapM ofLexeme = .ok tokens ↔
      ∃ token rest,
        tokens = token :: rest ∧ ofLexeme lexeme = .ok token ∧ lexemes.mapM ofLexeme = .ok rest := by
  rw [List.mapM_cons]
  cases ofLexeme lexeme with
  | error error => simp [bind, Except.bind]
  | ok token =>
    cases lexemes.mapM ofLexeme with
    | error error => simp [bind, Except.bind]
    | ok rest => simp [bind, Except.bind, pure, Except.pure, eq_comm]

theorem mapM_ofLexeme_eq_ok_iff {lexemes : List Text} {tokens : List (Token Binary64)} :
    lexemes.mapM ofLexeme = .ok tokens ↔
      lexemes = tokens.map text ∧ ∀ token ∈ tokens, ofLexeme token.text = .ok token := by
  induction lexemes generalizing tokens with
  | nil => cases tokens <;> simp [pure, Except.pure]
  | cons lexeme lexemes ih =>
    rw [mapM_cons_eq_ok_iff]
    constructor
    · intro hread
      obtain ⟨token, rest, rfl, htoken, hrest⟩ := hread
      obtain ⟨hlexemes, htokens⟩ := ih.mp hrest
      have htext := text_of_ofLexeme htoken
      refine ⟨by rw [List.map_cons, htext, ← hlexemes], List.forall_mem_cons.mpr ⟨?_, htokens⟩⟩
      rw [htext, htoken]
    · intro hread
      obtain ⟨hlexemes, htokens⟩ := hread
      cases tokens with
      | nil => cases hlexemes
      | cons token rest =>
        obtain ⟨hlexeme, hlexemes⟩ := List.cons.inj hlexemes
        obtain ⟨htoken, htokens⟩ := List.forall_mem_cons.mp htokens
        exact ⟨token, rest, rfl, by rw [hlexeme, htoken], ih.mpr ⟨hlexemes, htokens⟩⟩

theorem mapM_ofLexeme_eq_ok_iff_map_eq {lexemes : List Text} {tokens : List (Token Binary64)} :
    lexemes.mapM ofLexeme = .ok tokens ↔ lexemes.map ofLexeme = tokens.map .ok := by
  induction lexemes generalizing tokens with
  | nil => cases tokens <;> simp [pure, Except.pure]
  | cons lexeme lexemes ih =>
    rw [mapM_cons_eq_ok_iff]
    constructor
    · intro hread
      obtain ⟨token, rest, rfl, htoken, hrest⟩ := hread
      rw [List.map_cons, List.map_cons, htoken, ih.mp hrest]
    · intro hread
      cases tokens with
      | nil => cases hread
      | cons token rest =>
        obtain ⟨htoken, hrest⟩ := List.cons.inj hread
        exact ⟨token, rest, rfl, htoken, ih.mpr hrest⟩

theorem ofText_eq_ok_iff {text : Text} {tokens : List (Token Binary64)} :
    ofText text = .ok tokens ↔
      Lexeme.split text = tokens.map Token.text ∧ ∀ token ∈ tokens, ofLexeme token.text = .ok token :=
  mapM_ofLexeme_eq_ok_iff

/-! ### Rejected lexemes -/

def accepts (lexeme : Text) : Bool :=
  (ofLexeme lexeme).isOk

def firstRejected? (lexemes : List Text) : Option Text :=
  lexemes.find? fun lexeme => !accepts lexeme

theorem accepts_symbol (op : Operator) : accepts [op.symbol] = true := by
  rw [accepts, ofLexeme_symbol]
  rfl

theorem accepts_nil : accepts [] = false := by
  decide

theorem exists_finiteValue?_of_accepts {lexeme : Text} (haccepted : accepts lexeme = true)
    (hop : ∀ op : Operator, lexeme ≠ [op.symbol]) : ∃ value, finiteValue? lexeme = some value := by
  cases htoken : ofLexeme lexeme with
  | error error =>
    rw [accepts, htoken] at haccepted
    cases haccepted
  | ok token =>
    cases htoken ▸ reading_ofLexeme lexeme with
    | operator op hlexeme => exact absurd hlexeme (hop op)
    | number value hvalue => exact ⟨value, hvalue⟩

theorem firstRejected?_cons (lexeme : Text) (lexemes : List Text) :
    firstRejected? (lexeme :: lexemes) =
      if accepts lexeme then firstRejected? lexemes else some lexeme := by
  rw [firstRejected?, List.find?_cons, firstRejected?]
  cases accepts lexeme <;> rfl

theorem firstRejected?_append (left right : List Text) :
    firstRejected? (left ++ right) = (firstRejected? left).or (firstRejected? right) :=
  List.find?_append

theorem accepts_of_firstRejected?_eq_some {lexemes : List Text} {lexeme : Text}
    (hrejected : firstRejected? lexemes = some lexeme) : lexeme ∈ lexemes ∧ accepts lexeme = false := by
  have hnot := List.find?_some hrejected
  exact ⟨List.mem_of_find?_eq_some hrejected, by simpa using hnot⟩

theorem firstRejected?_eq_none_iff {lexemes : List Text} :
    firstRejected? lexemes = none ↔ ∀ lexeme ∈ lexemes, accepts lexeme = true := by
  rw [firstRejected?, List.find?_eq_none]
  simp

/-- The first lexeme that is no token is the error. -/
theorem mapM_ofLexeme_of_firstRejected? {lexemes : List Text} {lexeme : Text}
    (hrejected : firstRejected? lexemes = some lexeme) :
    lexemes.mapM ofLexeme = .error (.malformed lexeme) := by
  induction lexemes with
  | nil => cases hrejected
  | cons first rest ih =>
    rw [List.mapM_cons]
    rw [firstRejected?_cons, accepts] at hrejected
    cases htoken : ofLexeme first with
    | error error =>
      rw [htoken] at hrejected
      obtain rfl := Option.some.inj hrejected
      cases htoken ▸ reading_ofLexeme first with
      | malformed hvalue => rfl
    | ok token =>
      rw [htoken] at hrejected
      show (rest.mapM ofLexeme >>= _) = _
      rw [ih hrejected]
      rfl

theorem exists_ofLexeme_of_accepts {lexeme : Text} (haccepted : accepts lexeme = true) :
    ∃ token, ofLexeme lexeme = .ok token := by
  cases htoken : ofLexeme lexeme with
  | error error =>
    rw [accepts, htoken] at haccepted
    cases haccepted
  | ok token => exact ⟨token, rfl⟩

theorem exists_mapM_ofLexeme {lexemes : List Text}
    (haccepted : ∀ lexeme ∈ lexemes, accepts lexeme = true) :
    ∃ tokens, lexemes.mapM ofLexeme = .ok tokens := by
  induction lexemes with
  | nil => exact ⟨[], rfl⟩
  | cons lexeme lexemes ih =>
    obtain ⟨hlexeme, hlexemes⟩ := List.forall_mem_cons.mp haccepted
    obtain ⟨token, htoken⟩ := exists_ofLexeme_of_accepts hlexeme
    obtain ⟨tokens, htokens⟩ := ih hlexemes
    exact ⟨token :: tokens, mapM_cons_eq_ok_iff.mpr ⟨token, tokens, rfl, htoken, htokens⟩⟩

theorem mapM_ofLexeme_eq_error_iff {lexemes : List Text} {error : CalculationError} :
    lexemes.mapM ofLexeme = .error error ↔
      ∃ lexeme, firstRejected? lexemes = some lexeme ∧ error = .malformed lexeme := by
  constructor
  · intro herror
    cases hrejected : firstRejected? lexemes with
    | some lexeme =>
      rw [mapM_ofLexeme_of_firstRejected? hrejected] at herror
      exact ⟨lexeme, rfl, (Except.error.inj herror).symm⟩
    | none =>
      obtain ⟨tokens, htokens⟩ := exists_mapM_ofLexeme (firstRejected?_eq_none_iff.mp hrejected)
      rw [htokens] at herror
      cases herror
  · intro hfirst
    obtain ⟨lexeme, hrejected, rfl⟩ := hfirst
    exact mapM_ofLexeme_of_firstRejected? hrejected

end Token

theorem calculate_of_firstRejected? {text lexeme : Text}
    (hrejected : Token.firstRejected? (Lexeme.split text) = some lexeme) :
    calculate text = .error (.malformed lexeme) := by
  rw [calculate, reorderText, Token.ofText, Token.mapM_ofLexeme_of_firstRejected? hrejected]
  rfl

end FourFunction
