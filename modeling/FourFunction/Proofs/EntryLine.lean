import FourFunction.Entry
import FourFunction.Expression.Token
import FourFunction.Proofs.DisplayText

/-!
# The parts of an entry

Every entry that presses and results build is a line: a first text, segments of an operator with
digits, and perhaps an operator at the end. Entering and taking back are operations on lines here, and
each operation on a line is the operation of the entry on its text. Facts about entries of any history
are facts about valid lines.
-/

namespace FourFunction

/-- An operator with the digits behind it. A backspace over the only digit takes the space before it
too, and digits entered then are glued to the operator. -/
structure Segment where
  op : Operator
  glued : Bool
  digits : Text
  deriving DecidableEq

/-- The text before the first operator, the segments, newest first, and the operator at the end that
has both its spaces and no digits yet. -/
structure Line where
  first : Text
  segments : List Segment
  trailing : Option Operator
  deriving DecidableEq

/-! ### Blanks at the end of a text -/

namespace Text

theorem trimEnd_concat (text : Text) (c : Char) :
    trimEnd (text ++ [c]) = if isBlank c then trimEnd text else text ++ [c] := by
  rw [trimEnd, List.reverse_append, List.reverse_singleton, List.singleton_append, List.dropWhile_cons]
  split
  · rfl
  · rw [List.reverse_cons, List.reverse_reverse]

theorem trimEnd_of_visible_last {text : Text} (htext : ∀ c ∈ text.getLast?, isBlank c = false) :
    trimEnd text = text := by
  rcases text.eq_nil_or_concat with rfl | ⟨front, c, rfl⟩
  · rfl
  · have hc : isBlank c = false := htext c (by simp)
    rw [List.concat_eq_append, trimEnd_concat, if_neg (by simp [hc])]

end Text

/-! ### Where an operator can follow -/

namespace Entry

theorem acceptsOperator_iff {entry : Entry} :
    entry.acceptsOperator = true ↔ entry.text ≠ [] ∧ entry.text.getLast? ≠ some ' ' := by
  simp [acceptsOperator]

theorem isSome_pushOperator?_iff {entry : Entry} {op : Operator} :
    (entry.pushOperator? op).isSome = true ↔ entry.text ≠ [] ∧ entry.text.getLast? ≠ some ' ' := by
  rw [← acceptsOperator_iff, pushOperator?]
  split <;> simp_all

end Entry

/-! ### Pieces of a text -/

namespace Lexeme

theorem split_append_space (front rest : Text) :
    split (front ++ ' ' :: rest) = split front ++ split rest :=
  List.splitOn_append_cons_self front rest

theorem split_of_areVisible {text : Text} (htext : text.AreVisible) : split text = [text] := by
  have hspace : ' ' ∉ text := by
    intro hmem
    have hvisible := htext ' ' hmem
    exact absurd hvisible (by decide)
  exact List.splitOn_eq_singleton hspace

end Lexeme

/-! ### Segments -/

namespace Segment

open Text

def text (segment : Segment) : Text :=
  (if segment.glued then [' ', segment.op.symbol] else Entry.operatorText segment.op) ++ segment.digits

/-- The text of segments, newest first. -/
def textOf : List Segment → Text
  | [] => []
  | segment :: older => textOf older ++ segment.text

/-- Digits only, and an operator without digits has lost its second space. -/
def IsValid (segment : Segment) : Prop :=
  segment.digits.AreDigits ∧ (segment.digits = [] → segment.glued = true)

theorem isBlank_of_mem_getLast? {segment : Segment} (hvalid : segment.IsValid) :
    ∀ c ∈ segment.text.getLast?, isBlank c = false := by
  intro c hc
  by_cases hnone : segment.digits = []
  · rw [text, hvalid.2 hnone, hnone] at hc
    obtain rfl := Option.some.inj hc
    exact isBlank_symbol segment.op
  · rw [text, List.getLast?_append, List.getLast?_eq_some_getLast hnone] at hc
    obtain rfl := Option.some.inj hc
    exact isBlank_of_isDigit (hvalid.1 _ (List.getLast_mem hnone))

/-- Without the last digit, and without the space before the only one. -/
def dropDigit (segment : Segment) : Segment :=
  { segment with
    glued := segment.glued || segment.digits.length == 1
    digits := segment.digits.dropLast }

theorem IsValid.dropDigit {segment : Segment} (hvalid : segment.IsValid) :
    segment.dropDigit.IsValid := by
  constructor
  · intro c hc
    exact hvalid.1 c ((List.dropLast_sublist _).mem hc)
  · intro hnil
    have hlength : segment.digits.length - 1 = 0 := by
      simpa [Segment.dropDigit] using congrArg List.length hnil
    by_cases hnone : segment.digits = []
    · simp [Segment.dropDigit, hvalid.2 hnone]
    · have hpos := List.length_pos_iff.mpr hnone
      have hone : segment.digits.length = 1 := by omega
      simp [Segment.dropDigit, hone]

theorem text_ne_nil (segment : Segment) : segment.text ≠ [] := by
  rw [text]
  split <;> simp [Entry.operatorText]

theorem dropLast_text {segment : Segment} (hdigits : segment.digits ≠ []) :
    segment.text.dropLast = segment.dropDigit.text ∨
      segment.text.dropLast = segment.dropDigit.text ++ [' '] := by
  obtain ⟨op, glued, digits⟩ := segment
  match digits, hdigits with
  | [digit], _ =>
    cases glued
    · exact .inr rfl
    · exact .inl rfl
  | digit :: next :: digits, _ =>
    left
    rw [text, List.dropLast_append_of_ne_nil (by simp)]
    simp [text, dropDigit]

theorem isBlank_of_mem_getLast?_append {segment : Segment} (hvalid : segment.IsValid) (front : Text) :
    ∀ c ∈ (front ++ segment.text).getLast?, isBlank c = false := by
  intro c hc
  have hlast := List.getLast?_eq_some_getLast segment.text_ne_nil
  rw [List.getLast?_append, hlast] at hc
  exact isBlank_of_mem_getLast? hvalid c (hlast.trans hc)

theorem trimEnd_dropLast_text {segment : Segment} (hvalid : segment.IsValid)
    (hdigits : segment.digits ≠ []) (front : Text) :
    trimEnd (front ++ segment.text).dropLast = front ++ segment.dropDigit.text := by
  have hkept := isBlank_of_mem_getLast?_append hvalid.dropDigit front
  rw [List.dropLast_append_of_ne_nil segment.text_ne_nil]
  rcases dropLast_text hdigits with hdrop | hdrop
  · rw [hdrop, trimEnd_of_visible_last hkept]
  · rw [hdrop, ← List.append_assoc, trimEnd_concat, if_pos (by decide), trimEnd_of_visible_last hkept]

def lexemes (segment : Segment) : List Text :=
  if segment.glued then [segment.op.symbol :: segment.digits] else [[segment.op.symbol], segment.digits]

theorem split_append_text (front : Text) {segment : Segment} (hvalid : segment.IsValid) :
    Lexeme.split (front ++ segment.text) = Lexeme.split front ++ segment.lexemes := by
  have hsymbol := areVisible_symbol segment.op
  have hdigits := hvalid.1.areVisible
  rw [text, lexemes]
  cases segment.glued
  · have hspelled : Entry.operatorText segment.op ++ segment.digits =
        ' ' :: ([segment.op.symbol] ++ ' ' :: segment.digits) := rfl
    simp only [Bool.false_eq_true, if_false]
    rw [hspelled, Lexeme.split_append_space, Lexeme.split_append_space,
      Lexeme.split_of_areVisible hsymbol, Lexeme.split_of_areVisible hdigits]
    rfl
  · have hspelled : [' ', segment.op.symbol] ++ segment.digits =
        ' ' :: ([segment.op.symbol] ++ segment.digits) := rfl
    have hglued := areVisible_append.mpr ⟨hsymbol, hdigits⟩
    simp only [if_true]
    rw [hspelled, Lexeme.split_append_space, Lexeme.split_of_areVisible hglued]
    rfl

/-- The lexemes of segments that are newest first, in reading order. -/
def lexemesOf : List Segment → List Text
  | [] => []
  | segment :: older => lexemesOf older ++ segment.lexemes

theorem split_append_textOf (front : Text) {segments : List Segment}
    (hvalid : ∀ segment ∈ segments, segment.IsValid) :
    Lexeme.split (front ++ textOf segments) = Lexeme.split front ++ lexemesOf segments := by
  induction segments with
  | nil => rw [textOf, lexemesOf, List.append_nil, List.append_nil]
  | cons segment older ih =>
    obtain ⟨hsegment, holder⟩ := List.forall_mem_cons.mp hvalid
    rw [textOf, lexemesOf, ← List.append_assoc, split_append_text _ hsegment, ih holder,
      List.append_assoc]

end Segment

/-! ### Lines -/

namespace Line

open Text

def body (line : Line) : Text :=
  line.first ++ Segment.textOf line.segments

def trailingText : Option Operator → Text
  | none => []
  | some op => Entry.operatorText op

def text (line : Line) : Text :=
  line.body ++ trailingText line.trailing

/-- A line as presses and results leave it. -/
structure IsValid (line : Line) : Prop where
  first_visible : line.first.AreVisible
  segments_valid : ∀ segment ∈ line.segments, segment.IsValid
  bare_of_nil : line.first = [] → line.segments = [] ∧ line.trailing = none

theorem text_of_trailing_none {line : Line} (htrailing : line.trailing = none) :
    line.text = line.body := by
  rw [text, htrailing, trailingText, List.append_nil]

theorem text_eq_nil_iff {line : Line} (hvalid : line.IsValid) : line.text = [] ↔ line.first = [] := by
  constructor
  · intro htext
    rw [text, body, List.append_assoc] at htext
    exact (List.append_eq_nil_iff.mp htext).1
  · intro hfirst
    obtain ⟨hsegments, htrailing⟩ := hvalid.bare_of_nil hfirst
    rw [text, body, hfirst, hsegments, htrailing]
    rfl

/-- Only an operator at the end of a line leaves a blank there. -/
theorem isBlank_of_mem_getLast?_body {line : Line} (hvalid : line.IsValid) :
    ∀ c ∈ line.body.getLast?, isBlank c = false := by
  intro c hc
  rw [body] at hc
  cases hsegments : line.segments with
  | nil =>
    rw [hsegments, Segment.textOf, List.append_nil] at hc
    exact hvalid.first_visible c (List.mem_of_getLast? hc)
  | cons segment older =>
    have hsegment := hvalid.segments_valid segment (by simp [hsegments])
    rw [hsegments, Segment.textOf, ← List.append_assoc] at hc
    exact Segment.isBlank_of_mem_getLast?_append hsegment _ c hc

theorem trimEnd_body {line : Line} (hvalid : line.IsValid) : trimEnd line.body = line.body :=
  trimEnd_of_visible_last (isBlank_of_mem_getLast?_body hvalid)

theorem getLast?_text_eq_space_iff {line : Line} (hvalid : line.IsValid) :
    line.text.getLast? = some ' ' ↔ line.trailing.isSome := by
  rw [text]
  cases line.trailing with
  | some op => simp [trailingText, Entry.operatorText]
  | none =>
    have hlast : line.body.getLast? ≠ some ' ' := by
      intro hspace
      have hvisible := isBlank_of_mem_getLast?_body hvalid ' ' hspace
      exact absurd hvisible (by decide)
    simp [trailingText, hlast]

/-! ### Lexemes -/

def trailingLexemes : Option Operator → List Text
  | none => []
  | some op => [[op.symbol], []]

def lexemes (line : Line) : List Text :=
  line.first :: Segment.lexemesOf line.segments ++ trailingLexemes line.trailing

theorem split_text {line : Line} (hvalid : line.IsValid) : Lexeme.split line.text = line.lexemes := by
  have hbody : Lexeme.split line.body = line.first :: Segment.lexemesOf line.segments := by
    rw [body, Segment.split_append_textOf _ hvalid.segments_valid,
      Lexeme.split_of_areVisible hvalid.first_visible]
    rfl
  rw [text, lexemes]
  cases line.trailing with
  | none => rw [trailingText, List.append_nil, hbody, trailingLexemes, List.append_nil]
  | some op =>
    have hspelled : trailingText (some op) = ' ' :: ([op.symbol] ++ ' ' :: []) := rfl
    rw [hspelled, Lexeme.split_append_space, Lexeme.split_append_space, hbody,
      Lexeme.split_of_areVisible (areVisible_symbol op)]
    rfl

/-! ### Digits -/

def pushDigit (line : Line) (digit : Char) : Line :=
  match line.trailing, line.segments with
  | some op, segments => ⟨line.first, ⟨op, false, [digit]⟩ :: segments, none⟩
  | none, segment :: older =>
    ⟨line.first, { segment with digits := segment.digits ++ [digit] } :: older, none⟩
  | none, [] => ⟨line.first ++ [digit], [], none⟩

theorem text_pushDigit (line : Line) (digit : Char) :
    (line.pushDigit digit).text = line.text ++ [digit] := by
  obtain ⟨first, segments, trailing⟩ := line
  cases trailing with
  | some op => simp [pushDigit, text, body, trailingText, Segment.textOf, Segment.text]
  | none =>
    cases segments with
    | nil => simp [pushDigit, text, body, trailingText, Segment.textOf]
    | cons segment older => simp [pushDigit, text, body, trailingText, Segment.textOf, Segment.text]

theorem isValid_pushDigit {line : Line} (hvalid : line.IsValid) {digit : Char}
    (hdigit : digit.isDigit = true) : (line.pushDigit digit).IsValid := by
  obtain ⟨first, segments, trailing⟩ := line
  obtain ⟨hfirst, hsegments, hbare⟩ := hvalid
  have hone := areDigits_singleton hdigit
  cases trailing with
  | some op =>
    have hsegment : Segment.IsValid ⟨op, false, [digit]⟩ := ⟨hone, by simp⟩
    exact ⟨hfirst, List.forall_mem_cons.mpr ⟨hsegment, hsegments⟩,
      fun hnil => absurd (hbare hnil).2 (by simp)⟩
  | none =>
    cases segments with
    | nil =>
      exact ⟨areVisible_append.mpr ⟨hfirst, hone.areVisible⟩, by simp [pushDigit], fun _ => ⟨rfl, rfl⟩⟩
    | cons segment older =>
      obtain ⟨hsegment, holder⟩ := List.forall_mem_cons.mp hsegments
      have hlonger : Segment.IsValid { segment with digits := segment.digits ++ [digit] } :=
        ⟨hsegment.1.append hone, by simp⟩
      exact ⟨hfirst, List.forall_mem_cons.mpr ⟨hlonger, holder⟩,
        fun hnil => absurd (hbare hnil).1 (by simp)⟩

/-! ### Operators -/

def pushOperator (line : Line) (op : Operator) : Line :=
  if line.first = [] ∨ line.trailing.isSome then line else { line with trailing := some op }

theorem acceptsOperator_text {line : Line} (hvalid : line.IsValid) :
    (Entry.mk line.text).acceptsOperator = true ↔ ¬(line.first = [] ∨ line.trailing.isSome) := by
  rw [Entry.acceptsOperator_iff, ← text_eq_nil_iff hvalid, ← getLast?_text_eq_space_iff hvalid, not_or]

theorem pushOperator_text {line : Line} (hvalid : line.IsValid) (op : Operator) :
    Entry.pushOperator ⟨line.text⟩ op = ⟨(line.pushOperator op).text⟩ := by
  rw [Entry.pushOperator, Entry.pushOperator?, pushOperator]
  by_cases hrefused : line.first = [] ∨ line.trailing.isSome
  · rw [if_pos hrefused, if_neg (mt (acceptsOperator_text hvalid).mp (not_not_intro hrefused))]
    rfl
  · rw [if_neg hrefused, if_pos ((acceptsOperator_text hvalid).mpr hrefused)]
    have htrailing : line.trailing = none := Option.not_isSome_iff_eq_none.mp (not_or.mp hrefused).2
    simp [text, body, htrailing, trailingText]

theorem isValid_pushOperator {line : Line} (hvalid : line.IsValid) (op : Operator) :
    (line.pushOperator op).IsValid := by
  rw [pushOperator]
  split
  · exact hvalid
  · rename_i haccepted
    exact ⟨hvalid.first_visible, hvalid.segments_valid, fun hnil => absurd (.inl hnil) haccepted⟩

/-! ### Backspace -/

def backspace (line : Line) : Line :=
  match line.trailing, line.segments with
  | some _, segments => ⟨line.first, segments, none⟩
  | none, segment :: older =>
    if segment.digits = [] then ⟨line.first, older, none⟩
    else ⟨line.first, segment.dropDigit :: older, none⟩
  | none, [] => ⟨line.first.dropLast, [], none⟩

theorem isValid_backspace {line : Line} (hvalid : line.IsValid) : line.backspace.IsValid := by
  obtain ⟨first, segments, trailing⟩ := line
  obtain ⟨hfirst, hsegments, hbare⟩ := hvalid
  cases trailing with
  | some op => exact ⟨hfirst, hsegments, fun hnil => absurd (hbare hnil).2 (by simp)⟩
  | none =>
    cases segments with
    | nil =>
      have hshorter : AreVisible first.dropLast := by
        intro c hc
        exact hfirst c ((List.dropLast_sublist _).mem hc)
      exact ⟨hshorter, by simp [backspace], fun _ => ⟨rfl, rfl⟩⟩
    | cons segment older =>
      obtain ⟨hsegment, holder⟩ := List.forall_mem_cons.mp hsegments
      have hnonempty : first ≠ [] := fun hnil => absurd (hbare hnil).1 (by simp)
      rw [backspace]
      by_cases hnone : segment.digits = []
      · simp only [hnone, if_true]
        exact ⟨hfirst, holder, fun hnil => absurd hnil hnonempty⟩
      · simp only [hnone, if_false]
        exact ⟨hfirst, List.forall_mem_cons.mpr ⟨hsegment.dropDigit, holder⟩,
          fun hnil => absurd hnil hnonempty⟩

theorem trimEnd_text_of_trailing {line : Line} {op : Operator} (htrailing : line.trailing = some op) :
    trimEnd line.text = line.body ++ [' '] ++ [op.symbol] := by
  have hspelled : line.text = line.body ++ [' '] ++ [op.symbol] ++ [' '] := by
    simp [text, htrailing, trailingText, Entry.operatorText]
  rw [hspelled, trimEnd_concat, if_pos (by decide), trimEnd_concat, if_neg (by simp [isBlank_symbol])]

/-- A backspace over an operator at the end: the first trim takes the space behind it, and the second
one the space before it. -/
theorem trimEnd_dropLast_trimEnd_text {line : Line} (hvalid : line.IsValid) {op : Operator}
    (htrailing : line.trailing = some op) : trimEnd (trimEnd line.text).dropLast = line.body := by
  rw [trimEnd_text_of_trailing htrailing, List.dropLast_concat, trimEnd_concat, if_pos (by decide),
    trimEnd_body hvalid]

/-- A backspace where no operator is at the end: the space that is left last, if one is, goes too. -/
theorem trimEnd_dropLast_body {line : Line} (hvalid : line.IsValid)
    (htrailing : line.trailing = none) : trimEnd line.body.dropLast = line.backspace.body := by
  obtain ⟨first, segments, trailing⟩ := line
  obtain rfl : trailing = none := htrailing
  cases segments with
  | nil =>
    have hlast : ∀ c ∈ first.dropLast.getLast?, isBlank c = false := fun c hc =>
      hvalid.first_visible c ((List.dropLast_sublist _).mem (List.mem_of_getLast? hc))
    rw [body, Segment.textOf, List.append_nil, trimEnd_of_visible_last hlast]
    simp [backspace, body, Segment.textOf]
  | cons segment older =>
    obtain ⟨hsegment, holder⟩ := List.forall_mem_cons.mp hvalid.segments_valid
    rw [body, Segment.textOf, ← List.append_assoc, backspace]
    by_cases hnone : segment.digits = []
    · have hspelled : segment.text = [' '] ++ [segment.op.symbol] := by
        simp [Segment.text, hnone, hsegment.2 hnone]
      have holdest : Line.IsValid ⟨first, older, none⟩ :=
        ⟨hvalid.first_visible, holder, fun hnil => absurd (hvalid.bare_of_nil hnil).1 (by simp)⟩
      have htrimmed : trimEnd (first ++ Segment.textOf older) = first ++ Segment.textOf older :=
        trimEnd_body holdest
      simp only [hnone, if_true]
      rw [hspelled, ← List.append_assoc, List.dropLast_concat, trimEnd_concat, if_pos (by decide),
        htrimmed, body]
    · simp only [hnone, if_false]
      rw [Segment.trimEnd_dropLast_text hsegment hnone, body, Segment.textOf, List.append_assoc]

theorem backspace_text {line : Line} (hvalid : line.IsValid) :
    Entry.backspace ⟨line.text⟩ = ⟨line.backspace.text⟩ := by
  have hback : line.backspace.trailing = none := by
    rw [backspace]
    split
    · rfl
    · split <;> rfl
    · rfl
  rw [Entry.backspace, Entry.mk.injEq, text_of_trailing_none hback]
  cases htrailing : line.trailing with
  | some op =>
    have hbody : line.backspace.body = line.body := by
      simp [backspace, htrailing, body]
    rw [trimEnd_dropLast_trimEnd_text hvalid htrailing, hbody]
  | none =>
    rw [text_of_trailing_none htrailing, trimEnd_body hvalid]
    exact trimEnd_dropLast_body hvalid htrailing

end Line

end FourFunction
