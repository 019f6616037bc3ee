import FourFunction.Proofs.EntryLine
import FourFunction.Proofs.Lexemes

/-!
# The tokens of a text

Tokens keep their spellings and spaces separate them, so a text can be put together again from its
tokens. A text put together from pieces without spaces has just these pieces as its lexemes: it has
tokens if every piece is one, and else the error of the first piece that is none. Texts on both sides of
a space are read one after the other, so a space with nothing on one side of it is an error that names
nothing, unless there is an error before it.
-/

namespace FourFunction

/-! ### Pieces and their text -/

namespace Lexeme

theorem join_split (text : Text) : join (split text) = text :=
  List.intercalate_splitOn ' '

theorem split_join {lexemes : List Text} (hne : lexemes ≠ [])
    (hspace : ∀ lexeme ∈ lexemes, ' ' ∉ lexeme) : split (join lexemes) = lexemes :=
  List.splitOn_intercalate ' ' hspace hne

theorem join_singleton (lexeme : Text) : join [lexeme] = lexeme :=
  List.intercalate_singleton

theorem join_cons (lexeme : Text) {rest : List Text} (hrest : rest ≠ []) :
    join (lexeme :: rest) = lexeme ++ [' '] ++ join rest :=
  List.intercalate_cons_of_ne_nil hrest

theorem join_append {first second : List Text} (hfirst : first ≠ []) (hsecond : second ≠ []) :
    join (first ++ second) = join first ++ [' '] ++ join second := by
  induction first with
  | nil => exact absurd rfl hfirst
  | cons lexeme rest ih =>
    by_cases hrest : rest = []
    · rw [hrest, List.singleton_append, join_cons lexeme hsecond, join_singleton]
    · have hlonger : rest ++ second ≠ [] := List.append_ne_nil_of_left_ne_nil hrest second
      rw [List.cons_append, join_cons lexeme hlonger, ih hrest, join_cons lexeme hrest]
      simp only [List.append_assoc]

theorem isPrefix_join (lexeme : Text) (rest : List Text) : lexeme <+: join (lexeme :: rest) := by
  by_cases hrest : rest = []
  · simp only [hrest, join_singleton, List.prefix_rfl]
  · rw [join_cons lexeme hrest, List.append_assoc]
    exact List.prefix_append ..

/-- A text begins with any of its first lexemes, a space and what the next one begins with. -/
theorem isPrefix_of_split {text lexeme start : Text} {first after : List Text} (hfirst : first ≠ [])
    (hsplit : split text = first ++ lexeme :: after) (hstart : start <+: lexeme) :
    join first ++ [' '] ++ start <+: text := by
  rw [← join_split text, hsplit, join_append hfirst (List.cons_ne_nil lexeme after)]
  exact (List.prefix_append_right_inj _).mpr (hstart.trans (isPrefix_join lexeme after))

end Lexeme

/-! ### Spaces with nothing on one side -/

namespace Token

theorem ofText_append_space (front rest : Text) :
    ofText (front ++ ' ' :: rest) =
      (do
        let left ← ofText front
        let right ← ofText rest
        return left ++ right) := by
  rw [ofText, Lexeme.split_append_space, List.mapM_append]
  rfl

theorem ofText_nil : ofText [] = .error (.malformed []) :=
  mapM_ofLexeme_of_firstRejected? (by decide)

/-- What an error after the text makes of the text's tokens, or of its own error. -/
theorem ofText_append_space_of_error {rest : Text} {error : CalculationError}
    (hrest : ofText rest = .error error) (front : Text) :
    ofText (front ++ ' ' :: rest) = (ofText front).bind fun _ => .error error := by
  rw [ofText_append_space, hrest]
  rfl

theorem ofText_space (rest : Text) : ofText (' ' :: rest) = .error (.malformed []) := by
  have hempty := ofText_append_space [] rest
  rw [ofText_nil] at hempty
  exact hempty

end Token

theorem reorderText_eq_error_iff {text : Text} {error : CalculationError} :
    reorderText text = .error error ↔ Token.ofText text = .error error := by
  rw [reorderText]
  cases Token.ofText text with
  | error other => exact Iff.rfl
  | ok tokens =>
    constructor
    · intro herror
      cases herror
    · intro herror
      cases herror

/-- The spellings of the tokens of a text, joined by spaces, are the text. Pieces without spaces, joined
by spaces, are read as just the tokens that they are, or the first that is none is the error, and
reordering adds no error. So a space at the start is an error that names nothing, and so is one at the
end or behind another space, unless there is an error before it. -/
theorem tokens_of_joined_lexemes :
    (∀ (text : Text) (tokens : List (Token Binary64)), Token.ofText text = .ok tokens →
      tokens ≠ [] ∧ Lexeme.join (tokens.map Token.text) = text) ∧
    (∀ lexemes : List Text, lexemes ≠ [] → (∀ lexeme ∈ lexemes, ' ' ∉ lexeme) →
      (∀ tokens, Token.ofText (Lexeme.join lexemes) = .ok tokens ↔
        lexemes.map Token.ofLexeme = tokens.map .ok) ∧
      (∀ error, Token.ofText (Lexeme.join lexemes) = .error error ↔
        ∃ lexeme, Token.firstRejected? lexemes = some lexeme ∧ error = .malformed lexeme)) ∧
    (∀ front rest : Text,
      let unlessEarlier := (Token.ofText front).bind fun _ => .error (.malformed [])
      Token.ofText (' ' :: rest) = .error (.malformed []) ∧
      Token.ofText (front ++ [' ']) = unlessEarlier ∧
      Token.ofText (front ++ ' ' :: ' ' :: rest) = unlessEarlier) ∧
    ∀ (text : Text) (error : CalculationError),
      reorderText text = .error error ↔ Token.ofText text = .error error := by
  refine ⟨?_, ?_, ?_, fun _ _ => reorderText_eq_error_iff⟩
  · intro text tokens htokens
    have hsplit := (Token.ofText_eq_ok_iff.mp htokens).1
    constructor
    · rintro rfl
      exact List.splitOn_ne_nil ' ' text hsplit
    · rw [← hsplit, Lexeme.join_split]
  · intro lexemes hne hspace
    rw [Token.ofText, Lexeme.split_join hne hspace]
    exact ⟨fun _ => Token.mapM_ofLexeme_eq_ok_iff_map_eq, fun _ => Token.mapM_ofLexeme_eq_error_iff⟩
  · intro front rest unlessEarlier
    exact ⟨Token.ofText_space rest, Token.ofText_append_space_of_error Token.ofText_nil front,
      Token.ofText_append_space_of_error (Token.ofText_space rest) front⟩

/-- A text with tokens, and pieces of which the second and the third are none. -/
theorem tokens_of_joined_lexemes_rejected :
    let lexemes : List Text := ["-1".toList, [], "1e999".toList]
    (∃ tokens, Token.ofText "07 - 1e2".toList = .ok tokens ∧
      Lexeme.join (tokens.map Token.text) = "07 - 1e2".toList) ∧
    (∀ lexeme ∈ lexemes, ' ' ∉ lexeme) ∧ Token.firstRejected? lexemes = some [] ∧
      Token.ofText "-1  1e999".toList = .error (.malformed []) := by
  intro lexemes
  have haccepted : ∀ lexeme ∈ Lexeme.split "07 - 1e2".toList, Token.accepts lexeme = true := by
    decide +kernel
  obtain ⟨tokens, htokens⟩ := Token.exists_mapM_ofLexeme haccepted
  have hspace : ∀ lexeme ∈ lexemes, ' ' ∉ lexeme := by decide
  have hrejected : Token.firstRejected? lexemes = some [] := by decide +kernel
  have herror := ((tokens_of_joined_lexemes.2.1 lexemes (by decide) hspace).2 _).mpr ⟨[], hrejected, rfl⟩
  exact ⟨⟨tokens, htokens, (tokens_of_joined_lexemes.1 _ tokens htokens).2⟩, hspace, hrejected, herror⟩

end FourFunction
