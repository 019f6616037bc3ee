import Mathlib.Data.List.DropRight
import Mathlib.Logic.Function.Iterate
import FourFunction.Proofs.EntryShape

/-!
# Taking back

What backspaces leave of an entry, whatever text it holds. One backspace goes back to just before the last
visible character and drops the blanks that are the end then, and the blanks at the end of an entry make no
difference to it. So any number of backspaces can be read off the text at once, by counting its visible
characters from the end. What a single press has added is taken back by one, up to the blanks before it.
-/

namespace FourFunction

open Text

/-! ### Visible characters, counted from the end -/

namespace Text

/-- The text is the front of a whole up to its `k`-th visible character from the end. -/
def EndsBefore (front : Text) (k : Nat) (whole : Text) : Prop :=
  ∃ (c : Char) (rest : Text), whole = front ++ c :: rest ∧ isBlank c = false ∧
    rest.withoutBlanks.length + 1 = k

theorem withoutBlanks_append (left right : Text) :
    withoutBlanks (left ++ right) = left.withoutBlanks ++ right.withoutBlanks :=
  List.filter_append left right

theorem withoutBlanks_cons_of_visible {c : Char} (hc : isBlank c = false) (text : Text) :
    withoutBlanks (c :: text) = c :: text.withoutBlanks :=
  List.filter_cons_of_pos (by simp [hc])

theorem withoutBlanks_eq_nil_iff {text : Text} : text.withoutBlanks = [] ↔ ∀ c ∈ text, isBlank c = true := by
  simp [withoutBlanks, List.filter_eq_nil_iff]

theorem exists_endsBefore {whole : Text} {k : Nat} (hk : 0 < k) (hcount : k ≤ whole.withoutBlanks.length) :
    ∃ front : Text, front.EndsBefore k whole := by
  induction whole with
  | nil => exact absurd hcount (Nat.not_le.mpr hk)
  | cons c rest ih =>
    by_cases hrest : k ≤ (withoutBlanks rest).length
    · obtain ⟨front, d, behind, rfl, hd, hlength⟩ := ih hrest
      exact ⟨c :: front, d, behind, rfl, hd, hlength⟩
    · cases hc : isBlank c with
      | true =>
        rw [withoutBlanks, List.filter_cons_of_neg (by simp [hc])] at hcount
        exact absurd hcount hrest
      | false =>
        rw [withoutBlanks_cons_of_visible hc, List.length_cons] at hcount
        exact ⟨[], c, rest, rfl, hc, by omega⟩

/-- In front of a visible character stands the one before it, with only blanks between. -/
theorem EndsBefore.exists_succ {front whole : Text} {k : Nat} (hfront : front.EndsBefore (k + 2) whole) :
    ∃ next : Text, next.EndsBefore (k + 1) whole ∧ front.EndsBefore 1 next := by
  obtain ⟨c, rest, rfl, hc, hlength⟩ := hfront
  obtain ⟨blanks, d, behind, rfl, hd, hbehind⟩ :=
    exists_endsBefore (Nat.succ_pos k) (Nat.le_of_eq (Nat.succ.inj hlength).symm)
  rw [withoutBlanks_append, withoutBlanks_cons_of_visible hd, List.length_append, List.length_cons] at hlength
  exact ⟨front ++ c :: blanks, ⟨d, behind, by simp, hd, hbehind⟩, c, blanks, rfl, hc, by omega⟩

/-! ### Blanks at the end -/

theorem trimEnd_append_blanks (front : Text) {blanks : Text} (hblanks : ∀ c ∈ blanks, isBlank c = true) :
    trimEnd (front ++ blanks) = trimEnd front := by
  induction blanks using List.reverseRecOn with
  | nil => rw [List.append_nil]
  | append_singleton blanks last ih =>
    obtain ⟨hbefore, hlast⟩ := List.forall_mem_append.mp hblanks
    rw [← List.append_assoc, trimEnd_concat, if_pos (hlast last (List.mem_singleton_self last)), ih hbefore]

theorem trimEnd_trimEnd (text : Text) : trimEnd (trimEnd text) = trimEnd text :=
  List.rdropWhile_idempotent isBlank text

theorem isPrefix_trimEnd (text : Text) : trimEnd text <+: text :=
  List.rdropWhile_prefix isBlank text

theorem withoutBlanks_trimEnd (text : Text) : (trimEnd text).withoutBlanks = text.withoutBlanks := by
  induction text using List.reverseRecOn with
  | nil => rfl
  | append_singleton front last ih =>
    rw [trimEnd_concat]
    split
    · rename_i hlast
      have hnone : withoutBlanks [last] = [] := by simp [withoutBlanks, hlast]
      rw [ih, withoutBlanks_append, hnone, List.append_nil]
    · rfl

theorem EndsBefore.trimEnd_eq {front whole : Text} (hfront : front.EndsBefore 1 whole) :
    ∃ c, isBlank c = false ∧ trimEnd whole = front ++ [c] ∧ whole.withoutBlanks = front.withoutBlanks ++ [c] := by
  obtain ⟨c, blanks, rfl, hc, hlength⟩ := hfront
  have hnone : withoutBlanks blanks = [] := List.length_eq_zero_iff.mp (Nat.succ.inj hlength)
  refine ⟨c, hc, ?_, ?_⟩
  · rw [List.append_cons, trimEnd_append_blanks _ (withoutBlanks_eq_nil_iff.mp hnone), trimEnd_concat, hc,
      if_neg Bool.false_ne_true]
  · rw [withoutBlanks_append, withoutBlanks_cons_of_visible hc, hnone]

end Text

/-! ### One backspace -/

namespace Entry

theorem backspace_of_endsBefore {entry : Entry} {front : Text} (hfront : front.EndsBefore 1 entry.text) :
    entry.backspace = ⟨trimEnd front⟩ := by
  obtain ⟨c, _, htrim, _⟩ := hfront.trimEnd_eq
  rw [backspace, htrim, List.dropLast_concat]

theorem backspace_of_withoutBlanks {entry : Entry} (hnone : entry.text.withoutBlanks = []) :
    entry.backspace = empty := by
  have htrim := trimEnd_append_blanks [] (withoutBlanks_eq_nil_iff.mp hnone)
  rw [backspace, ← List.nil_append entry.text, htrim]
  rfl

/-- A backspace does not see the blanks at the end. -/
theorem backspace_trimEnd (text : Text) : backspace ⟨trimEnd text⟩ = backspace ⟨text⟩ := by
  rw [backspace, backspace, trimEnd_trimEnd]

/-- The blanks in front of the character go with it. -/
theorem backspace_concat (text : Text) {c : Char} (hc : isBlank c = false) :
    backspace ⟨text ++ [c]⟩ = ⟨trimEnd text⟩ :=
  backspace_of_endsBefore ⟨c, [], rfl, hc, rfl⟩

theorem backspace_append_operatorText (text : Text) (op : Operator) :
    backspace ⟨text ++ operatorText op⟩ = ⟨trimEnd text⟩ := by
  have hspace : ∀ c ∈ [' '], isBlank c = true := List.forall_mem_singleton.mpr rfl
  have hfront : (text ++ [' ']).EndsBefore 1 (text ++ operatorText op) :=
    ⟨op.symbol, [' '], by simp [operatorText], isBlank_symbol op, rfl⟩
  rw [backspace_of_endsBefore hfront, trimEnd_append_blanks text hspace]

theorem withoutBlanks_backspace (entry : Entry) :
    entry.backspace.text.withoutBlanks = entry.text.withoutBlanks.dropLast := by
  by_cases hnone : entry.text.withoutBlanks = []
  · rw [backspace_of_withoutBlanks hnone, hnone]
    rfl
  · obtain ⟨front, hfront⟩ := exists_endsBefore Nat.one_pos (List.length_pos_iff.mpr hnone)
    obtain ⟨c, _, _, hvisible⟩ := hfront.trimEnd_eq
    rw [backspace_of_endsBefore hfront, withoutBlanks_trimEnd, hvisible, List.dropLast_concat]

theorem isPrefix_backspace (entry : Entry) : entry.backspace.text <+: entry.text :=
  (isPrefix_trimEnd _).trans ((List.dropLast_prefix _).trans (isPrefix_trimEnd _))

/-! ### Any number of backspaces -/

theorem iterate_backspace_of_endsBefore {entry : Entry} {k : Nat} {front : Text}
    (hfront : front.EndsBefore (k + 1) entry.text) : backspace^[k + 1] entry = ⟨trimEnd front⟩ := by
  induction k generalizing front with
  | zero => exact backspace_of_endsBefore hfront
  | succ k ih =>
    obtain ⟨next, hnext, hlast⟩ := hfront.exists_succ
    rw [Function.iterate_succ_apply', ih hnext, backspace_trimEnd]
    exact backspace_of_endsBefore hlast

theorem length_withoutBlanks_iterate (entry : Entry) (k : Nat) :
    (backspace^[k] entry).text.withoutBlanks.length = entry.text.withoutBlanks.length - k := by
  induction k with
  | zero => rfl
  | succ k ih =>
    rw [Function.iterate_succ_apply', withoutBlanks_backspace, List.length_dropLast, ih, Nat.sub_sub]

theorem iterate_backspace_of_lt {entry : Entry} {k : Nat} (hfew : entry.text.withoutBlanks.length < k) :
    backspace^[k] entry = empty := by
  obtain ⟨k, rfl⟩ := Nat.exists_eq_succ_of_ne_zero (Nat.ne_zero_of_lt hfew)
  have hlength := length_withoutBlanks_iterate entry k
  rw [Nat.sub_eq_zero_of_le (Nat.lt_succ_iff.mp hfew)] at hlength
  rw [Function.iterate_succ_apply']
  exact backspace_of_withoutBlanks (List.length_eq_zero_iff.mp hlength)

end Entry

/-- Any number of backspaces leave what stands before the visible character that they come to, without the
blanks at its end, and nothing if there are too few. So each takes one visible character and nothing before
it, leaves no blank at the end, and takes back a single press up to the blanks before it: any digit, and an
operator unless the entry is empty or ends in a space. -/
theorem iterated_backspace (entry : Entry) :
    (∀ k : Nat,
      (∀ front : Text, front.EndsBefore k entry.text → (Entry.backspace^[k] entry).text = trimEnd front) ∧
      (0 < k → k ≤ entry.text.withoutBlanks.length → ∃ front : Text, front.EndsBefore k entry.text) ∧
      (entry.text.withoutBlanks.length < k → (Entry.backspace^[k] entry).text = [])) ∧
    entry.backspace.text.withoutBlanks = entry.text.withoutBlanks.dropLast ∧
    entry.backspace.text <+: entry.text ∧
    (∀ c ∈ entry.backspace.text.getLast?, isBlank c = false) ∧
    (∀ digit ≤ 9, ∃ pressed, entry.pushDigit? digit = some pressed ∧
      pressed.backspace.text = trimEnd entry.text) ∧
    ∀ op, ((entry.pushOperator? op).isSome = true ↔ entry.text ≠ [] ∧ entry.text.getLast? ≠ some ' ') ∧
      ∀ pressed, entry.pushOperator? op = some pressed → pressed.backspace.text = trimEnd entry.text := by
  refine ⟨?_, entry.withoutBlanks_backspace, entry.isPrefix_backspace,
    isBlank_of_mem_getLast?_trimEnd _, ?_, ?_⟩
  · intro k
    refine ⟨?_, exists_endsBefore, ?_⟩
    · intro front hfront
      obtain ⟨c, rest, htext, hc, rfl⟩ := hfront
      rw [Entry.iterate_backspace_of_endsBefore ⟨c, rest, htext, hc, rfl⟩]
    · intro hfew
      rw [Entry.iterate_backspace_of_lt hfew]
      rfl
  · intro digit hdigit
    refine ⟨_, if_pos hdigit, ?_⟩
    rw [Entry.backspace_concat _ (isBlank_of_isDigit (Line.isDigit_digitChar hdigit))]
  · intro op
    refine ⟨Entry.isSome_pushOperator?_iff, ?_⟩
    intro pressed hpressed
    obtain rfl := Option.some.inj (Option.ite_none_right_eq_some.mp hpressed).2
    rw [Entry.backspace_append_operatorText]

/-- The blank at the end of this entry is no space, so an operator is accepted behind it, and the backspace
that takes the operator back takes that blank too. -/
theorem iterated_backspace_no_break_space :
    let entry : Entry := ⟨['1', ' ', '+', ' ', '2', '\u00a0']⟩
    (Entry.backspace^[2] entry).text = ['1'] ∧
      ∃ pressed, entry.pushOperator? .multiply = some pressed ∧
        pressed.text = ['1', ' ', '+', ' ', '2', '\u00a0', ' ', '*', ' '] ∧
        pressed.backspace.text = ['1', ' ', '+', ' ', '2'] := by
  intro entry
  obtain ⟨hiterated, _, _, _, _, hoperator⟩ := iterated_backspace entry
  have hfront : EndsBefore ['1', ' '] 2 entry.text := ⟨'+', [' ', '2', '\u00a0'], rfl, rfl, rfl⟩
  have hpressed := (hoperator .multiply).1.mpr (by decide)
  obtain ⟨pressed, hpressed⟩ := Option.isSome_iff_exists.mp hpressed
  refine ⟨(hiterated 2).1 _ hfront, pressed, hpressed, ?_, (hoperator .multiply).2 pressed hpressed⟩
  obtain rfl := Option.some.inj hpressed
  rfl

end FourFunction
