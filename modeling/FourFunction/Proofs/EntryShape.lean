import Mathlib.Data.List.Chain
import FourFunction.Proofs.SessionLine

/-!
# The shape of an entry

What the entry looks like after any presses, backspaces included. Its only blanks are spaces, each alone
between two visible characters or at the end, and a space at the end belongs to an operator. Behind the
first lexeme, which may be any result that was cut and continued, stand operators and digits only. All
of it is read off the line of the session.
-/

namespace FourFunction

open Text

/-! ### Shapes of texts -/

/-- An operator symbol, or digits, or digits behind an operator symbol. -/
def IsOperatorWithDigits (lexeme : Text) : Prop :=
  lexeme ≠ [] ∧
    ∃ (op : Option Operator) (digits : Text),
      digits.AreDigits ∧ lexeme = (op.map Operator.symbol).toList ++ digits

/-- The lexemes behind the first, less the last one if a space stands before it. -/
def laterLexemes (text : Text) : List Text :=
  if text.getLast? = some ' ' then (Lexeme.split text).tail.dropLast else (Lexeme.split text).tail

structure IsEntryShaped (text : Text) : Prop where
  starts_visible : text.head? ≠ some ' '
  spaces_apart : ¬[' ', ' '] <:+: text
  blank_is_space : ∀ c ∈ text, isBlank c = true → c = ' '
  ends_padded : text.getLast? = some ' ' →
    ∃ (front : Text) (op : Operator), front ≠ [] ∧ text = front ++ [' ', op.symbol, ' ']
  last_empty : text.getLast? = some ' ' → (Lexeme.split text).getLast? = some []
  later_lexemes : ∀ lexeme ∈ laterLexemes text, IsOperatorWithDigits lexeme

/-! ### Spaces apart -/

namespace Text

def NotBothSpaces (left right : Char) : Prop :=
  ¬(left = ' ' ∧ right = ' ')

theorem not_infix_of_isChain {text : Text} (htext : text.IsChain NotBothSpaces) :
    ¬[' ', ' '] <:+: text := by
  intro hinfix
  obtain ⟨before, after, rfl⟩ := hinfix
  have hsplit : before ++ [' ', ' '] ++ after = before ++ ' ' :: ' ' :: after := by simp
  exact List.isChain_iff_forall_rel_of_append_cons_cons.mp htext hsplit ⟨rfl, rfl⟩

theorem AreVisible.blank_is_space {text : Text} (htext : text.AreVisible) :
    ∀ c ∈ text, isBlank c = true → c = ' ' := by
  intro c hc hblank
  rw [htext c hc] at hblank
  cases hblank

theorem AreVisible.isChain {text : Text} (htext : text.AreVisible) : text.IsChain NotBothSpaces := by
  apply List.Pairwise.isChain
  apply List.pairwise_of_forall_mem_list
  intro left hleft right _ hboth
  exact ne_space_of_isBlank (htext left hleft) hboth.1

/-- A space fits between two texts if neither has a space there. -/
theorem isChain_append_space {left right : Text} (hleft : left.IsChain NotBothSpaces)
    (hlast : ∀ c ∈ left.getLast?, isBlank c = false) (hright : right.AreVisible) :
    (left ++ ' ' :: right).IsChain NotBothSpaces := by
  have hbehind : (' ' :: right).IsChain NotBothSpaces := by
    apply (List.isChain_singleton ' ').append hright.isChain
    intro left _ c hc hboth
    exact ne_space_of_isBlank (hright c (List.mem_of_head? hc)) hboth.2
  apply hleft.append hbehind
  intro c hc right _ hboth
  exact ne_space_of_isBlank (hlast c hc) hboth.1

theorem isBlank_of_mem_getLast?_trimEnd (text : Text) :
    ∀ c ∈ (trimEnd text).getLast?, isBlank c = false := by
  induction text using List.reverseRecOn with
  | nil => simp [trimEnd]
  | append_singleton front last ih =>
    rw [trimEnd_concat]
    split
    · exact ih
    · rename_i hlast
      intro c hc
      rw [List.getLast?_concat] at hc
      obtain rfl := Option.some.inj hc
      simpa using hlast

end Text

/-! ### Segments -/

namespace Segment

theorem isChain_append_text {front : Text} (hfront : front.IsChain NotBothSpaces)
    (hlast : ∀ c ∈ front.getLast?, isBlank c = false) {segment : Segment} (hvalid : segment.IsValid) :
    (front ++ segment.text).IsChain NotBothSpaces := by
  have hsymbol := areVisible_symbol segment.op
  have hdigits := hvalid.1.areVisible
  rw [text]
  cases segment.glued
  · have hspelled : front ++ (Entry.operatorText segment.op ++ segment.digits) =
        (front ++ ' ' :: [segment.op.symbol]) ++ ' ' :: segment.digits := by
      simp [Entry.operatorText]
    have hoperator := isChain_append_space hfront hlast hsymbol
    simp only [Bool.false_eq_true, if_false]
    rw [hspelled]
    exact isChain_append_space hoperator (by simp [isBlank_symbol]) hdigits
  · have hspelled : front ++ ([' ', segment.op.symbol] ++ segment.digits) =
        front ++ ' ' :: ([segment.op.symbol] ++ segment.digits) := rfl
    simp only [if_true]
    rw [hspelled]
    exact isChain_append_space hfront hlast (areVisible_append.mpr ⟨hsymbol, hdigits⟩)

theorem eq_space_of_mem_text {segment : Segment} (hvalid : segment.IsValid) :
    ∀ c ∈ segment.text, isBlank c = true → c = ' ' := by
  intro c hc hblank
  have hparts : c = ' ' ∨ c ∈ [segment.op.symbol] ∨ c ∈ segment.digits := by
    rw [text] at hc
    cases hglued : segment.glued <;> simp [hglued, Entry.operatorText] at hc ⊢ <;> tauto
  rcases hparts with hspace | hsymbol | hdigit
  · exact hspace
  · exact (areVisible_symbol segment.op).blank_is_space c hsymbol hblank
  · exact hvalid.1.areVisible.blank_is_space c hdigit hblank

theorem isOperatorWithDigits_of_mem_lexemes {segment : Segment} (hvalid : segment.IsValid) :
    ∀ lexeme ∈ segment.lexemes, IsOperatorWithDigits lexeme := by
  intro lexeme hlexeme
  rw [lexemes] at hlexeme
  cases hglued : segment.glued
  · have hne : segment.digits ≠ [] := by
      intro hnone
      have hsame := hvalid.2 hnone
      rw [hglued] at hsame
      cases hsame
    rw [hglued, if_neg Bool.false_ne_true] at hlexeme
    rcases List.mem_pair.mp hlexeme with rfl | rfl
    · exact ⟨by simp, some segment.op, [], by decide, rfl⟩
    · exact ⟨hne, none, segment.digits, hvalid.1, rfl⟩
  · rw [hglued, if_pos rfl] at hlexeme
    obtain rfl := List.mem_singleton.mp hlexeme
    exact ⟨by simp, some segment.op, segment.digits, hvalid.1, rfl⟩

theorem isOperatorWithDigits_of_mem_lexemesOf {segments : List Segment}
    (hvalid : ∀ segment ∈ segments, segment.IsValid) :
    ∀ lexeme ∈ lexemesOf segments, IsOperatorWithDigits lexeme := by
  induction segments with
  | nil => simp [lexemesOf]
  | cons segment older ih =>
    obtain ⟨hsegment, holder⟩ := List.forall_mem_cons.mp hvalid
    rw [lexemesOf]
    exact List.forall_mem_append.mpr ⟨ih holder, isOperatorWithDigits_of_mem_lexemes hsegment⟩

end Segment

/-! ### Lines -/

namespace Line

variable {line : Line}

theorem isValid_older {first : Text} {segment : Segment} {older : List Segment}
    {trailing : Option Operator} (hvalid : IsValid ⟨first, segment :: older, trailing⟩) :
    IsValid ⟨first, older, none⟩ :=
  ⟨hvalid.first_visible, (List.forall_mem_cons.mp hvalid.segments_valid).2,
    fun hnil => absurd (hvalid.bare_of_nil hnil).1 (by simp)⟩

theorem isChain_body : ∀ {segments : List Segment} {first : Text} {trailing : Option Operator},
    IsValid ⟨first, segments, trailing⟩ → (first ++ Segment.textOf segments).IsChain NotBothSpaces
  | [], first, _, hvalid => by
    rw [Segment.textOf, List.append_nil]
    exact AreVisible.isChain hvalid.first_visible
  | segment :: older, first, _, hvalid => by
    have holder := isValid_older hvalid
    have hsegment := (List.forall_mem_cons.mp hvalid.segments_valid).1
    rw [Segment.textOf, ← List.append_assoc]
    exact Segment.isChain_append_text (isChain_body holder) (isBlank_of_mem_getLast?_body holder)
      hsegment

theorem eq_space_of_mem_textOf {segments : List Segment}
    (hvalid : ∀ segment ∈ segments, segment.IsValid) :
    ∀ c ∈ Segment.textOf segments, isBlank c = true → c = ' ' := by
  induction segments with
  | nil => simp [Segment.textOf]
  | cons segment older ih =>
    obtain ⟨hsegment, holder⟩ := List.forall_mem_cons.mp hvalid
    rw [Segment.textOf]
    exact List.forall_mem_append.mpr ⟨ih holder, Segment.eq_space_of_mem_text hsegment⟩

theorem head?_text_ne_space (hvalid : line.IsValid) : line.text.head? ≠ some ' ' := by
  intro hhead
  by_cases hnil : line.first = []
  · rw [(text_eq_nil_iff hvalid).mpr hnil] at hhead
    cases hhead
  · rw [text, body, List.append_assoc, List.head?_append_of_ne_nil _ hnil] at hhead
    exact ne_space_of_isBlank (hvalid.first_visible _ (List.mem_of_head? hhead)) rfl

theorem isChain_text (hvalid : line.IsValid) : line.text.IsChain NotBothSpaces := by
  have hbody : line.body.IsChain NotBothSpaces := isChain_body hvalid
  have hlast := isBlank_of_mem_getLast?_body hvalid
  rw [text]
  cases line.trailing with
  | none => rwa [trailingText, List.append_nil]
  | some op =>
    have hspelled : line.body ++ trailingText (some op) =
        (line.body ++ ' ' :: [op.symbol]) ++ ' ' :: [] := by
      simp [trailingText, Entry.operatorText]
    have hoperator := isChain_append_space hbody hlast (areVisible_symbol op)
    rw [hspelled]
    exact isChain_append_space hoperator (by simp [isBlank_symbol]) (by decide)

theorem eq_space_of_mem_text (hvalid : line.IsValid) : ∀ c ∈ line.text, isBlank c = true → c = ' ' := by
  have hfirst := AreVisible.blank_is_space hvalid.first_visible
  have htrailing : ∀ c ∈ trailingText line.trailing, isBlank c = true → c = ' ' := by
    cases line.trailing with
    | none => simp [trailingText]
    | some op => simp [trailingText, Entry.operatorText, isBlank_symbol]
  rw [text, body]
  exact List.forall_mem_append.mpr
    ⟨List.forall_mem_append.mpr ⟨hfirst, eq_space_of_mem_textOf hvalid.segments_valid⟩, htrailing⟩

theorem exists_trailing_of_getLast? (hvalid : line.IsValid) (hspace : line.text.getLast? = some ' ') :
    ∃ op, line.trailing = some op :=
  Option.isSome_iff_exists.mp ((getLast?_text_eq_space_iff hvalid).mp hspace)

theorem exists_padded_of_getLast? (hvalid : line.IsValid) (hspace : line.text.getLast? = some ' ') :
    ∃ (front : Text) (op : Operator), front ≠ [] ∧ line.text = front ++ [' ', op.symbol, ' '] := by
  obtain ⟨op, hop⟩ := exists_trailing_of_getLast? hvalid hspace
  have hne : line.body ≠ [] := by
    intro hnil
    have hbare := hvalid.bare_of_nil (List.append_eq_nil_iff.mp hnil).1
    rw [hbare.2] at hop
    cases hop
  exact ⟨line.body, op, hne, by rw [text, hop]; rfl⟩

theorem getLast?_split_text (hvalid : line.IsValid) (hspace : line.text.getLast? = some ' ') :
    (Lexeme.split line.text).getLast? = some [] := by
  obtain ⟨op, hop⟩ := exists_trailing_of_getLast? hvalid hspace
  rw [split_text hvalid, lexemes, hop, List.getLast?_append]
  rfl

/-- The empty lexeme behind an operator at the end is the one that is left out. -/
theorem laterLexemes_text (hvalid : line.IsValid) :
    laterLexemes line.text =
      Segment.lexemesOf line.segments ++ (line.trailing.map fun op => [op.symbol]).toList := by
  have hspace := getLast?_text_eq_space_iff hvalid
  rw [laterLexemes, split_text hvalid, lexemes]
  cases htrailing : line.trailing with
  | none => simp [hspace, htrailing, trailingLexemes]
  | some op => simp [hspace, htrailing, trailingLexemes, List.dropLast_append_of_ne_nil]

theorem isEntryShaped_text (hvalid : line.IsValid) : IsEntryShaped line.text where
  starts_visible := head?_text_ne_space hvalid
  spaces_apart := not_infix_of_isChain (isChain_text hvalid)
  blank_is_space := eq_space_of_mem_text hvalid
  ends_padded := exists_padded_of_getLast? hvalid
  last_empty := getLast?_split_text hvalid
  later_lexemes := by
    intro lexeme hlexeme
    rw [laterLexemes_text hvalid] at hlexeme
    rcases List.mem_append.mp hlexeme with hsegment | htrailing
    · exact Segment.isOperatorWithDigits_of_mem_lexemesOf hvalid.segments_valid lexeme hsegment
    · obtain ⟨op, _, rfl⟩ := Option.map_eq_some_iff.mp (Option.mem_toList.mp htrailing)
      exact ⟨by simp, some op, [], by decide, rfl⟩

end Line

/-- Whatever is pressed, the entry keeps its shape, and a backspace leaves no blank at its end. -/
theorem entry_shape (config : Config) (actions : List Action) :
    IsEntryShaped ((Session.start config).pressAll actions).entry.text ∧
      ∀ c ∈ ((Session.start config).pressAll (actions ++ [.backspace])).entry.text.getLast?,
        isBlank c = false := by
  obtain ⟨line, hvalid, hentry⟩ := Session.exists_valid_line_pressAll config actions
  constructor
  · rw [hentry]
    exact Line.isEntryShaped_text hvalid
  · rw [Session.pressAll_concat]
    exact isBlank_of_mem_getLast?_trimEnd _

end FourFunction
