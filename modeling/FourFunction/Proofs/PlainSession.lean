import FourFunction.Proofs.SessionLine
import FourFunction.Proofs.TwoTier

/-!
# Sessions without a backspace

Without a backspace an entry is empty or plain: operands and operators alternate, and all that can be
wrong with it is an operand that is no finite number, or an operator at its end. So equals finds a
value or names the first such operand, and no operand is ever missing.
-/

namespace FourFunction

open Text

/-! ### Plain lines -/

/-- Digits, or a display with digits behind it. -/
def IsFirstOperand (format : DisplayFormat) (text : Text) : Prop :=
  (text ≠ [] ∧ text.AreDigits) ∨
    ∃ (value : Binary64) (digits : Text), digits.AreDigits ∧ text = value.display format ++ digits

theorem IsFirstOperand.isOperand {format : DisplayFormat} {text : Text}
    (htext : IsFirstOperand format text) : text.IsOperand := by
  rcases htext with ⟨hne, hdigits⟩ | ⟨value, digits, hdigits, rfl⟩
  · exact hdigits.isOperand hne
  · exact (Binary64.isOperand_display format value).append_digits hdigits

theorem IsFirstOperand.append {format : DisplayFormat} {text digits : Text}
    (htext : IsFirstOperand format text) (hdigits : digits.AreDigits) :
    IsFirstOperand format (text ++ digits) := by
  rcases htext with ⟨hne, hfront⟩ | ⟨value, front, hfront, rfl⟩
  · exact .inl ⟨by simp [hne], hfront.append hdigits⟩
  · exact .inr ⟨value, front ++ digits, hfront.append hdigits, by rw [List.append_assoc]⟩

/-- An operator with both its spaces, and digits. -/
def Segment.IsPlain (segment : Segment) : Prop :=
  segment.glued = false ∧ segment.digits ≠ [] ∧ segment.digits.AreDigits

namespace Line

/-- A first operand, operators with digits, and perhaps an operator at the end. -/
structure IsPlain (format : DisplayFormat) (line : Line) : Prop where
  first_operand : IsFirstOperand format line.first
  segments_plain : ∀ segment ∈ line.segments, segment.IsPlain

/-- The operands in reading order. -/
def operands (line : Line) : List Text :=
  line.first :: (line.segments.map Segment.digits).reverse

variable {format : DisplayFormat} {line next : Line} {action : Action}

theorem IsPlain.isValid (hplain : line.IsPlain format) : line.IsValid := by
  have hfirst := hplain.first_operand.isOperand
  refine ⟨hfirst.1, ?_, fun hnil => absurd hnil hfirst.ne_nil⟩
  intro segment hsegment
  obtain ⟨_, hne, hdigits⟩ := hplain.segments_plain segment hsegment
  exact ⟨hdigits, fun hnone => absurd hnone hne⟩

theorem isPlain_pushDigit {digit : Char} (hdigit : digit.isDigit = true)
    (hline : line = .empty ∨ line.IsPlain format) : (line.pushDigit digit).IsPlain format := by
  have hone := areDigits_singleton hdigit
  rcases hline with rfl | ⟨hfirst, hsegments⟩
  · exact ⟨.inl ⟨by simp [pushDigit, empty], hone⟩, by simp [pushDigit, empty]⟩
  · obtain ⟨first, segments, trailing⟩ := line
    cases trailing with
    | some op =>
      have hsegment : Segment.IsPlain ⟨op, false, [digit]⟩ := ⟨rfl, by simp, hone⟩
      exact ⟨hfirst, List.forall_mem_cons.mpr ⟨hsegment, hsegments⟩⟩
    | none =>
      cases segments with
      | nil => exact ⟨hfirst.append hone, by simp [pushDigit]⟩
      | cons segment older =>
        obtain ⟨⟨hglued, _, hdigits⟩, holder⟩ := List.forall_mem_cons.mp hsegments
        have hlonger : Segment.IsPlain { segment with digits := segment.digits ++ [digit] } :=
          ⟨hglued, by simp, hdigits.append hone⟩
        exact ⟨hfirst, List.forall_mem_cons.mpr ⟨hlonger, holder⟩⟩

theorem isPlain_pushOperator (hplain : line.IsPlain format) (op : Operator) :
    (line.pushOperator op).IsPlain format := by
  rw [pushOperator]
  split
  · exact hplain
  · exact ⟨hplain.first_operand, hplain.segments_plain⟩

theorem Step.isPlain (hstep : Step format line action next) (haction : action ≠ .backspace)
    (hline : line = .empty ∨ line.IsPlain format) : next = .empty ∨ next.IsPlain format := by
  cases hstep with
  | digit value hvalue => exact .inr (isPlain_pushDigit (isDigit_digitChar hvalue) hline)
  | refused => exact hline
  | operator op =>
    rcases hline with rfl | hplain
    · exact .inl rfl
    · exact .inr (isPlain_pushOperator hplain op)
  | reentered value =>
    have hshown : IsFirstOperand format (value.display format) :=
      .inr ⟨value, [], by decide, by rw [List.append_nil]⟩
    exact .inr ⟨hshown, by simp⟩
  | held => exact hline
  | clear => exact .inl rfl
  | backspace => exact absurd rfl haction

/-! ### Outcomes of plain lines -/

theorem isOperand_of_mem_operands (hplain : line.IsPlain format) {operand : Text}
    (hoperand : operand ∈ line.operands) : operand.IsOperand := by
  rw [operands, List.mem_cons, List.mem_reverse, List.mem_map] at hoperand
  rcases hoperand with rfl | ⟨segment, hsegment, rfl⟩
  · exact hplain.first_operand.isOperand
  · obtain ⟨_, hne, hdigits⟩ := hplain.segments_plain segment hsegment
    exact hdigits.isOperand hne

theorem firstRejected?_lexemesOf {segments : List Segment}
    (hplain : ∀ segment ∈ segments, segment.IsPlain) :
    Token.firstRejected? (Segment.lexemesOf segments) =
      Token.firstRejected? (segments.map Segment.digits).reverse := by
  induction segments with
  | nil => rfl
  | cons segment older ih =>
    obtain ⟨⟨hglued, _, _⟩, holder⟩ := List.forall_mem_cons.mp hplain
    rw [Segment.lexemesOf, List.map_cons, List.reverse_cons, Token.firstRejected?_append,
      Token.firstRejected?_append, ih holder]
    simp [Segment.lexemes, hglued, Token.firstRejected?_cons, Token.accepts_symbol]

/-- Operators are tokens, so what is rejected is an operand, or the empty lexeme behind an operator at
the end. -/
theorem firstRejected?_lexemes (hplain : line.IsPlain format) :
    Token.firstRejected? line.lexemes =
      (Token.firstRejected? line.operands).or (line.trailing.map fun _ => []) := by
  have htrailing : Token.firstRejected? (trailingLexemes line.trailing) =
      line.trailing.map fun _ => [] := by
    cases line.trailing with
    | none => rfl
    | some op =>
      simp [trailingLexemes, Token.firstRejected?_cons, Token.accepts_symbol, Token.accepts_nil]
  rw [lexemes, operands, Token.firstRejected?_append, htrailing, Token.firstRejected?_cons,
    Token.firstRejected?_cons, firstRejected?_lexemesOf hplain.segments_plain]

theorem calculate_text_of_firstRejected? {lexeme : Text} (hvalid : line.IsValid)
    (hrejected : Token.firstRejected? line.lexemes = some lexeme) :
    calculate line.text = .error (.malformed lexeme) := by
  apply calculate_of_firstRejected?
  rw [split_text hvalid, hrejected]

/-- The line as a chain, with a value for each operand. -/
def chainWith (value : Text → Binary64) (line : Line) : Chain Binary64 :=
  let operand (text : Text) : Operand Binary64 := ⟨text, value text⟩
  ⟨operand line.first, (line.segments.map fun segment => (segment.op, operand segment.digits)).reverse⟩

theorem operands_chainWith (value : Text → Binary64) (line : Line) :
    (line.chainWith value).operands = line.operands.map fun text => ⟨text, value text⟩ := by
  simp [chainWith, Chain.operands, operands, Function.comp_def]

theorem lexemesOf_eq_linkTokens (value : Text → Binary64) (first : Text) {segments : List Segment}
    (hplain : ∀ segment ∈ segments, segment.IsPlain) :
    Segment.lexemesOf segments =
      (Chain.linkTokens (chainWith value ⟨first, segments, none⟩).links).map Token.text := by
  rw [Chain.linkTokens_eq, chainWith]
  induction segments with
  | nil => rfl
  | cons segment older ih =>
    obtain ⟨⟨hglued, _, _⟩, holder⟩ := List.forall_mem_cons.mp hplain
    rw [Segment.lexemesOf, ih holder, List.map_cons, List.reverse_cons, List.flatMap_append,
      List.map_append]
    simp [Segment.lexemes, hglued, Operand.token, Token.text]

theorem isSpelledBy_chainWith {value : Text → Binary64} (hplain : line.IsPlain format)
    (htrailing : line.trailing = none)
    (hvalue : ∀ operand ∈ line.operands, Token.finiteValue? operand = some (value operand)) :
    (line.chainWith value).IsSpelledBy line.text := by
  constructor
  · rw [split_text hplain.isValid, lexemes, htrailing,
      lexemesOf_eq_linkTokens value line.first hplain.segments_plain]
    simp [trailingLexemes, Chain.tokens, chainWith, Operand.token, Token.text]
  · rw [operands_chainWith]
    intro operand hoperand
    obtain ⟨text, htext, rfl⟩ := List.mem_map.mp hoperand
    exact hvalue text htext

theorem exists_chain_of_accepted (hplain : line.IsPlain format) (htrailing : line.trailing = none)
    (haccepted : ∀ operand ∈ line.operands, Token.accepts operand = true) :
    ∃ chain : Chain Binary64, chain.IsSpelledBy line.text := by
  refine ⟨line.chainWith fun operand => (Token.finiteValue? operand).getD .nan,
    isSpelledBy_chainWith hplain htrailing ?_⟩
  intro operand hoperand
  have hsymbol := (isOperand_of_mem_operands hplain hoperand).ne_symbol
  obtain ⟨value, hvalue⟩ := Token.exists_finiteValue?_of_accepts (haccepted operand hoperand) hsymbol
  rw [hvalue, Option.getD_some]

end Line

/-! ### Sessions -/

/-- A text that presses without a backspace leave, with its operands. -/
def PlainText (format : DisplayFormat) (operands : List Text) (text : Text) : Prop :=
  (text = [] ∧ operands = []) ∨
    ∃ line : Line, line.IsPlain format ∧ text = line.text ∧ operands = line.operands

namespace Session

theorem exists_plain_line_pressAll (config : Config) {actions : List Action}
    (hactions : Action.backspace ∉ actions) :
    ∃ line : Line, (line = .empty ∨ line.IsPlain config.format) ∧
      ((start config).pressAll actions).entry = ⟨line.text⟩ := by
  apply exists_line_pressAll config actions
  · intro line hline
    rcases hline with rfl | hplain
    · exact Line.isValid_empty
    · exact hplain.isValid
  · exact .inl rfl
  · intro action haction line next hline hnext
    exact hnext.isPlain (fun hback => hactions (hback ▸ haction)) hline

/-- There is an entry, it does not end in a space, and its operands are finite numbers. -/
def IsComplete (session : Session) (operands : List Text) : Prop :=
  session.entry.text ≠ [] ∧ session.entry.text.getLast? ≠ some ' ' ∧
    ∀ operand ∈ operands, Token.accepts operand = true

/-- Equals answers with a value just if the entry is complete, and its only error names the first
operand that is no finite number, or nothing if there is none. -/
def AnswersFor (session : Session) (operands : List Text) : Prop :=
  ((∃ shown, session.outcome = .ok shown) ↔ session.IsComplete operands) ∧
    ∀ error, session.outcome = .error error →
      error = .malformed ((Token.firstRejected? operands).getD [])

variable {session : Session} {operands : List Text}

theorem answersFor_of_malformed {lexeme : Text}
    (hmalformed : calculate session.entry.text = .error (.malformed lexeme))
    (hincomplete : ¬session.IsComplete operands)
    (hlexeme : (Token.firstRejected? operands).getD [] = lexeme) : session.AnswersFor operands := by
  have houtcome : session.outcome = .error (.malformed lexeme) := by
    rw [outcome, shownValue, hmalformed]
    rfl
  rw [AnswersFor, houtcome, hlexeme]
  have hnone : ¬∃ shown,
      (Except.error (.malformed lexeme) : Except CalculationError Text) = .ok shown := by
    intro hvalue
    obtain ⟨_, hshown⟩ := hvalue
    cases hshown
  exact ⟨iff_of_false hnone hincomplete, fun error herror => (Except.error.inj herror).symm⟩

theorem answersFor_of_isSpelledBy {chain : Chain Binary64}
    (hspelled : chain.IsSpelledBy session.entry.text) (hcomplete : session.IsComplete operands) :
    session.AnswersFor operands := by
  have houtcome : session.outcome = .ok _ :=
    shownValue_of_calculate (Chain.calculate_of_isSpelledBy hspelled)
  rw [AnswersFor, houtcome]
  exact ⟨iff_of_true ⟨_, rfl⟩ hcomplete, fun error herror => nomatch herror⟩

theorem answersFor_nil (hentry : session.entry.text = []) : session.AnswersFor [] := by
  have hmalformed : calculate session.entry.text = .error (.malformed []) := by
    rw [hentry]
    exact Line.calculate_text_of_firstRejected? Line.isValid_empty rfl
  exact answersFor_of_malformed hmalformed (fun hcomplete => hcomplete.1 hentry) rfl

theorem answersFor_operands {format : DisplayFormat} {line : Line} (hplain : line.IsPlain format)
    (hentry : session.entry.text = line.text) : session.AnswersFor line.operands := by
  have hlexemes := Line.firstRejected?_lexemes hplain
  have hspace := Line.getLast?_text_eq_space_iff hplain.isValid
  cases hrejected : Token.firstRejected? line.operands with
  | some operand =>
    obtain ⟨hoperand, hnot⟩ := Token.accepts_of_firstRejected?_eq_some hrejected
    rw [hrejected, Option.some_or] at hlexemes
    have hmalformed := Line.calculate_text_of_firstRejected? hplain.isValid hlexemes
    rw [← hentry] at hmalformed
    apply answersFor_of_malformed hmalformed
    · intro hcomplete
      rw [hcomplete.2.2 operand hoperand] at hnot
      cases hnot
    · rw [hrejected, Option.getD_some]
  | none =>
    have haccepted := Token.firstRejected?_eq_none_iff.mp hrejected
    cases htrailing : line.trailing with
    | some op =>
      -- Every operand is a number, and the empty lexeme behind the operator is not.
      rw [hrejected, htrailing, Option.none_or, Option.map_some] at hlexemes
      have hmalformed := Line.calculate_text_of_firstRejected? hplain.isValid hlexemes
      rw [← hentry] at hmalformed
      apply answersFor_of_malformed hmalformed
      · intro hcomplete
        exact hcomplete.2.1 (by rw [hentry, hspace, htrailing, Option.isSome_some])
      · rw [hrejected, Option.getD_none]
    | none =>
      obtain ⟨chain, hspelled⟩ := Line.exists_chain_of_accepted hplain htrailing haccepted
      have hne : line.text ≠ [] :=
        mt (Line.text_eq_nil_iff hplain.isValid).mp hplain.first_operand.isOperand.ne_nil
      have hlast : line.text.getLast? ≠ some ' ' := by
        rw [ne_eq, hspace, htrailing]
        decide
      rw [← hentry] at hspelled hne hlast
      exact answersFor_of_isSpelledBy hspelled ⟨hne, hlast, haccepted⟩

theorem exists_chain_of_outcome (config : Config) {actions : List Action} {shown : Text}
    (hactions : Action.backspace ∉ actions)
    (houtcome : ((start config).pressAll actions).outcome = .ok shown) :
    ∃ chain : Chain Binary64, chain.IsSpelledBy ((start config).pressAll actions).entry.text := by
  obtain ⟨line, hline, hentry⟩ := exists_plain_line_pressAll config hactions
  have htext := congrArg Entry.text hentry
  rcases hline with rfl | hplain
  · have hcomplete := (answersFor_nil htext).1.mp ⟨shown, houtcome⟩
    exact absurd htext hcomplete.1
  · obtain ⟨_, hlast, haccepted⟩ := (answersFor_operands hplain htext).1.mp ⟨shown, houtcome⟩
    rw [htext, ne_eq, Line.getLast?_text_eq_space_iff hplain.isValid,
      Option.not_isSome_iff_eq_none] at hlast
    rw [htext]
    exact Line.exists_chain_of_accepted hplain hlast haccepted

end Session

/-- Without a backspace every entry is empty or plain, and equals answers for its operands. -/
theorem plain_session_outcome (config : Config) (actions : List Action)
    (hactions : Action.backspace ∉ actions) :
    ∃ operands, PlainText config.format operands ((Session.start config).pressAll actions).entry.text ∧
      ((Session.start config).pressAll actions).AnswersFor operands := by
  obtain ⟨line, hline, hentry⟩ := Session.exists_plain_line_pressAll config hactions
  rcases hline with rfl | hplain
  · have hnil := congrArg Entry.text hentry
    exact ⟨[], .inl ⟨hnil, rfl⟩, Session.answersFor_nil hnil⟩
  · have htext := congrArg Entry.text hentry
    exact ⟨line.operands, .inr ⟨line, hplain, htext, rfl⟩, Session.answersFor_operands hplain htext⟩

/-- A result that is no number is entered again, and then a digit. -/
theorem plain_session_outcome_infinity :
    let session := (Session.start {}).pressAll [.digit 5, .operator .divide, .digit 0, .equals, .digit 3]
    session.entry.text = ['I', 'n', 'f', 'i', 'n', 'i', 't', 'y', '3'] ∧
      ∃ operands, PlainText .decimal operands session.entry.text ∧ session.AnswersFor operands :=
  ⟨by decide +kernel, plain_session_outcome {} _ (by decide)⟩

end FourFunction
