import FourFunction.Proofs.ChainedCalculation
import FourFunction.Proofs.Overflow
import FourFunction.Proofs.PlainSession

/-!
# Entries made of digits and operators

What the keys of digits and operators leave in an empty entry: nothing, or a plain line that starts with
digits. The chain that such an entry stands for can be read off its text without splitting it into
lexemes. Its operands are the runs of digits, and its operators are the operator symbols.
-/

namespace FourFunction

open Text

/-! ### Keys -/

/-- The keys that an expression is entered with. -/
inductive EntryKey
  | digit (value : Fin 10)
  | operator (op : Operator)

def EntryKey.action : EntryKey → Action
  | digit value => DigitRun.key value
  | operator op => .operator op

theorem EntryKey.action_ne_backspace (key : EntryKey) : key.action ≠ .backspace := by
  cases key <;> simp [action, DigitRun.key]

/-- The session after these keys. -/
def Session.entered (config : Config) (keys : List EntryKey) : Session :=
  (start config).pressAll (keys.map EntryKey.action)

theorem Session.config_entered (config : Config) (keys : List EntryKey) :
    (entered config keys).config = config :=
  config_pressAll (start config) _

/-! ### Keyed lines -/

namespace Line

variable {format : DisplayFormat} {line next : Line}

/-- Empty, or plain with digits before the first operator. -/
def IsKeyed (format : DisplayFormat) (line : Line) : Prop :=
  (line = .empty ∨ line.IsPlain format) ∧ line.first.AreDigits

theorem areDigits_first_pushDigit {digit : Char} (hdigit : digit.isDigit = true)
    (hfirst : line.first.AreDigits) : (line.pushDigit digit).first.AreDigits := by
  obtain ⟨first, segments, trailing⟩ := line
  cases trailing with
  | some op => exact hfirst
  | none =>
    cases segments with
    | nil => exact hfirst.append (areDigits_singleton hdigit)
    | cons segment older => exact hfirst

theorem Step.isKeyed {key : EntryKey} (hstep : Step format line key.action next)
    (hkeyed : line.IsKeyed format) : next.IsKeyed format := by
  obtain ⟨hline, hfirst⟩ := hkeyed
  refine ⟨hstep.isPlain key.action_ne_backspace hline, ?_⟩
  cases key with
  | digit value =>
    change Step format line (.digit value.val.toUInt8) next at hstep
    cases hstep with
    | digit _ hvalue => exact areDigits_first_pushDigit (isDigit_digitChar hvalue) hfirst
    | refused => exact hfirst
  | operator op =>
    change Step format line (.operator op) next at hstep
    cases hstep with
    | operator =>
      rw [pushOperator]
      split <;> exact hfirst

theorem IsKeyed.isValid (hkeyed : line.IsKeyed format) : line.IsValid := by
  rcases hkeyed.1 with rfl | hplain
  · exact isValid_empty
  · exact hplain.isValid

end Line

theorem Session.exists_keyed_line (config : Config) (keys : List EntryKey) :
    ∃ line : Line, line.IsKeyed config.format ∧ (entered config keys).entry.text = line.text := by
  have hstep : ∀ action ∈ keys.map EntryKey.action, ∀ line next : Line,
      line.IsKeyed config.format → Line.Step config.format line action next →
        next.IsKeyed config.format := by
    intro action haction line next hkeyed hstep
    obtain ⟨key, _, rfl⟩ := List.mem_map.mp haction
    exact hstep.isKeyed hkeyed
  obtain ⟨line, hkeyed, hentry⟩ :=
    exists_line_pressAll config _ (fun _ hkeyed => hkeyed.isValid) ⟨.inl rfl, by decide⟩ hstep
  exact ⟨line, hkeyed, congrArg Entry.text hentry⟩

/-! ### Runs of digits and operator symbols -/

namespace Text

/-- The digits between other characters, as long runs as there are. -/
def digitRuns (text : Text) : List Text :=
  (text.splitOnP fun c => !c.isDigit).filter (· ≠ [])

/-- The operators whose symbols stand in the text. -/
def operatorsIn (text : Text) : List Operator :=
  text.filterMap Operator.ofSymbol?

/-- The whole number that digits are. -/
def wholeValue (digits : Text) : Nat :=
  Nat.ofDigitChars 10 digits 0

theorem digitRuns_append_cons (front rest : Text) {c : Char} (hc : c.isDigit = false) :
    digitRuns (front ++ c :: rest) = digitRuns front ++ digitRuns rest := by
  rw [digitRuns, List.splitOnP_append_cons front rest (by rw [hc]; rfl), List.filter_append]
  rfl

theorem digitRuns_append_operatorText (front rest : Text) (op : Operator) :
    digitRuns (front ++ (Entry.operatorText op ++ rest)) = digitRuns front ++ digitRuns rest := by
  have hspace : Char.isDigit ' ' = false := by decide
  have hnil : digitRuns [] = [] := by decide
  show digitRuns (front ++ ' ' :: ([] ++ op.symbol :: ([] ++ ' ' :: rest))) = _
  rw [digitRuns_append_cons _ _ hspace, digitRuns_append_cons _ _ (isDigit_symbol op),
    digitRuns_append_cons _ _ hspace, hnil, List.nil_append, List.nil_append]

theorem digitRuns_of_areDigits {digits : Text} (hdigits : digits.AreDigits) (hne : digits ≠ []) :
    digitRuns digits = [digits] := by
  have hnone : ∀ c ∈ digits, (!c.isDigit) = false := fun c hc => by rw [hdigits c hc]; rfl
  rw [digitRuns, List.splitOnP_eq_singleton hnone]
  simp [hne]

theorem areDigits_of_mem_splitOnP {text piece : Text}
    (hpiece : piece ∈ text.splitOnP fun c => !c.isDigit) : piece.AreDigits := by
  induction text generalizing piece with
  | nil =>
    rw [List.splitOnP_nil, List.mem_singleton] at hpiece
    rw [hpiece]
    decide
  | cons c rest ih =>
    rw [List.splitOnP_cons_eq_if_modifyHead] at hpiece
    cases hpieces : rest.splitOnP fun c => !c.isDigit with
    | nil => exact absurd hpieces (List.splitOnP_ne_nil _ rest)
    | cons next later =>
      rw [hpieces] at hpiece ih
      cases hc : c.isDigit with
      | false =>
        rw [hc, if_pos Bool.not_false] at hpiece
        rcases List.mem_cons.mp hpiece with rfl | hlater
        · decide
        · exact ih hlater
      | true =>
        rw [hc, if_neg (by decide)] at hpiece
        rcases List.mem_cons.mp hpiece with rfl | hlater
        · exact (areDigits_singleton hc).append (ih (List.mem_cons_self ..))
        · exact ih (List.mem_cons_of_mem _ hlater)

theorem areDigits_of_mem_digitRuns {text run : Text} (hrun : run ∈ digitRuns text) :
    run.AreDigits ∧ run ≠ [] := by
  obtain ⟨hpiece, hne⟩ := List.mem_filter.mp hrun
  exact ⟨areDigits_of_mem_splitOnP hpiece, by simpa using hne⟩

theorem operatorsIn_append (left right : Text) :
    operatorsIn (left ++ right) = operatorsIn left ++ operatorsIn right :=
  List.filterMap_append

theorem operatorsIn_operatorText (op : Operator) : operatorsIn (Entry.operatorText op) = [op] := by
  cases op <;> decide

theorem operatorsIn_of_areDigits {digits : Text} (hdigits : digits.AreDigits) :
    operatorsIn digits = [] := by
  rw [operatorsIn, List.filterMap_eq_nil_iff]
  intro c hc
  rw [Option.eq_none_iff_forall_ne_some]
  intro op hop
  have hsymbol := Operator.ofText?_eq_some_iff.mp (show Operator.ofText? [c] = some op from hop)
  have hdigit := hdigits c hc
  rw [(List.cons.inj hsymbol).1, isDigit_symbol] at hdigit
  cases hdigit

end Text

/-! ### The chain of a text -/

/-- The number nearest to the digits. -/
def Operand.ofDigits (digits : Text) : Operand Binary64 :=
  ⟨digits, .nearestWhole (wholeValue digits)⟩

/-- The digits are a numeral unless their number is too large. -/
theorem Token.finiteValue?_digits {digits : Text} (hdigits : digits.AreDigits) (hne : digits ≠ []) :
    finiteValue? digits =
      if wholeValue digits < overflowBound then some (.nearestWhole (wholeValue digits)) else none := by
  have hread : finiteValue? digits =
      (some (Binary64.nearestWhole (wholeValue digits))).filter Binary64.isFinite :=
    finiteValue?_of_areDigits hdigits hne
  rw [hread, Option.filter_some]
  simp only [Binary64.isFinite_nearestWhole]

theorem Token.accepts_digits {digits : Text} (hdigits : digits.AreDigits) (hne : digits ≠ []) :
    accepts digits = true ↔ wholeValue digits < overflowBound := by
  have hread := finiteValue?_digits hdigits hne
  split at hread
  · rename_i hbound
    rw [accepts, ofLexeme_of_finiteValue? hread]
    exact iff_of_true rfl hbound
  · rename_i hbound
    refine iff_of_false ?_ hbound
    intro haccepted
    obtain ⟨value, hvalue⟩ :=
      exists_finiteValue?_of_accepts haccepted (hdigits.isOperand hne).ne_symbol
    rw [hread] at hvalue
    cases hvalue

/-- The operands are the runs of digits in the text, and the operators are its operator symbols. -/
structure Chain.IsReadOff (chain : Chain Binary64) (text : Text) : Prop where
  operands_eq : chain.operands = (digitRuns text).map Operand.ofDigits
  operators_eq : chain.links.map Prod.fst = operatorsIn text

theorem Chain.IsReadOff.isNearest {chain : Chain Binary64} {text : Text} (hread : chain.IsReadOff text)
    (hbound : ∀ run ∈ digitRuns text, wholeValue run < overflowBound) :
    ∀ operand ∈ chain.operands, operand.value.IsNearest (wholeValue operand.text) := by
  intro operand hoperand
  rw [hread.operands_eq] at hoperand
  obtain ⟨run, hrun, rfl⟩ := List.mem_map.mp hoperand
  exact Binary64.isNearest_nearestWhole (hbound run hrun)

namespace Line

variable {format : DisplayFormat} {line : Line}

theorem IsKeyed.isPlain (hkeyed : line.IsKeyed format) (hne : line.text ≠ []) : line.IsPlain format :=
  hkeyed.1.resolve_left fun hempty => hne (by rw [hempty]; rfl)

theorem text_of_isPlain {segment : Segment} (hplain : segment.IsPlain) :
    segment.text = Entry.operatorText segment.op ++ segment.digits := by
  simp [Segment.text, hplain.1]

theorem digitRuns_append_textOf (front : Text) {segments : List Segment}
    (hplain : ∀ segment ∈ segments, segment.IsPlain) :
    digitRuns (front ++ Segment.textOf segments) =
      digitRuns front ++ (segments.map Segment.digits).reverse := by
  induction segments with
  | nil => simp [Segment.textOf]
  | cons segment older ih =>
    obtain ⟨hsegment, holder⟩ := List.forall_mem_cons.mp hplain
    rw [Segment.textOf, text_of_isPlain hsegment, ← List.append_assoc, digitRuns_append_operatorText,
      ih holder, digitRuns_of_areDigits hsegment.2.2 hsegment.2.1]
    simp

theorem operatorsIn_textOf {segments : List Segment} (hplain : ∀ segment ∈ segments, segment.IsPlain) :
    operatorsIn (Segment.textOf segments) = (segments.map Segment.op).reverse := by
  induction segments with
  | nil => rfl
  | cons segment older ih =>
    obtain ⟨hsegment, holder⟩ := List.forall_mem_cons.mp hplain
    rw [Segment.textOf, text_of_isPlain hsegment, operatorsIn_append, operatorsIn_append, ih holder,
      operatorsIn_operatorText, operatorsIn_of_areDigits hsegment.2.2]
    simp

theorem digitRuns_text (hkeyed : line.IsKeyed format) (hplain : line.IsPlain format) :
    digitRuns line.text = line.operands := by
  have hbody : digitRuns line.body = line.operands := by
    rw [body, digitRuns_append_textOf _ hplain.segments_plain,
      digitRuns_of_areDigits hkeyed.2 hplain.first_operand.isOperand.ne_nil]
    rfl
  rw [text, ← hbody]
  cases line.trailing with
  | none => rw [trailingText, List.append_nil]
  | some op =>
    have hend := digitRuns_append_operatorText line.body [] op
    rw [List.append_nil] at hend
    rw [trailingText, hend]
    exact List.append_nil _

/-- The line as a chain, with the nearest numbers. -/
def chain (line : Line) : Chain Binary64 :=
  line.chainWith fun digits => .nearestWhole (wholeValue digits)

theorem isReadOff_chain (hkeyed : line.IsKeyed format) (hplain : line.IsPlain format)
    (htrailing : line.trailing = none) : line.chain.IsReadOff line.text := by
  constructor
  · rw [chain, operands_chainWith, digitRuns_text hkeyed hplain]
    rfl
  · rw [text_of_trailing_none htrailing, body, operatorsIn_append, operatorsIn_of_areDigits hkeyed.2,
      operatorsIn_textOf hplain.segments_plain]
    simp [chain, chainWith, Function.comp_def]

theorem isSpelledBy_chain (hkeyed : line.IsKeyed format) (hplain : line.IsPlain format)
    (htrailing : line.trailing = none)
    (hbound : ∀ run ∈ digitRuns line.text, wholeValue run < overflowBound) :
    line.chain.IsSpelledBy line.text := by
  apply isSpelledBy_chainWith hplain htrailing
  intro operand hoperand
  rw [← digitRuns_text hkeyed hplain] at hoperand
  obtain ⟨hdigits, hne⟩ := areDigits_of_mem_digitRuns hoperand
  rw [Token.finiteValue?_digits hdigits hne, if_pos (hbound operand hoperand)]

/-- Where no operator is at the end, the last character is a digit. -/
theorem isDigit_of_mem_getLast?_text (hkeyed : line.IsKeyed format) (htrailing : line.trailing = none) :
    ∀ c ∈ line.text.getLast?, c.isDigit = true := by
  obtain ⟨hline, hfirst⟩ := hkeyed
  rw [text_of_trailing_none htrailing, body]
  intro c hc
  cases hsegments : line.segments with
  | nil =>
    rw [hsegments, Segment.textOf, List.append_nil] at hc
    exact hfirst c (List.mem_of_getLast? hc)
  | cons segment older =>
    have hplain : line.IsPlain format :=
      hline.resolve_left fun hempty => by rw [hempty] at hsegments; cases hsegments
    obtain ⟨hglued, hne, hdigits⟩ := hplain.segments_plain segment (by simp [hsegments])
    rw [hsegments, Segment.textOf, Segment.text, ← List.append_assoc, List.getLast?_append,
      List.getLast?_append, List.getLast?_eq_some_getLast hne] at hc
    obtain rfl := Option.some.inj hc
    exact hdigits _ (List.getLast_mem hne)

end Line

end FourFunction
