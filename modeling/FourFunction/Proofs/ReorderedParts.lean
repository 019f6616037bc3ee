import FourFunction.Proofs.Waiting

/-!
# Reordering in parts

Where tokens can be cut so that the parts are reordered apart. What has passed through a yard has no say in
what follows, so a list may be cut in front of an operator that releases all that waits: an additive operator
anywhere, a multiplicative one where no additive operator came before. A cut in front of any other operator
is wrong, whatever follows.
-/

namespace FourFunction

variable {α : Type}

open Token

namespace Yard

/-! ### What has passed -/

theorem push_eq (passed : List (Token α)) (waiting : List Operator) (token : Token α) :
    push ⟨passed, waiting⟩ token =
      ⟨(push ⟨[], waiting⟩ token).passed ++ passed, (push ⟨[], waiting⟩ token).waiting⟩ := by
  cases token with
  | number text value => rfl
  | operator op => simp [push, released, held]

/-- What has passed stays in front and has no say in what follows. -/
theorem drain_foldl_push (tokens passed : List (Token α)) (waiting : List Operator) :
    (tokens.foldl push ⟨passed, waiting⟩).drain =
      passed.reverse ++ (tokens.foldl push ⟨[], waiting⟩).drain := by
  induction tokens generalizing passed waiting with
  | nil => rfl
  | cons token tokens ih =>
    have hstep := push_eq [] waiting token
    rw [List.append_nil] at hstep
    rw [List.foldl_cons, List.foldl_cons, push_eq passed, ih, hstep, ih (push ⟨[], waiting⟩ token).passed,
      List.reverse_append, List.append_assoc]

theorem foldl_push_ofTokens (front rest : List (Token α)) :
    rest.foldl push (ofTokens front) = ofTokens (front ++ rest) := by
  rw [ofTokens, ofTokens, List.foldl_append]

/-- What an operator releases has passed, and the rest is reordered from what waits then. -/
theorem reorder_append_operator (front rest : List (Token α)) (op : Operator) :
    reorder (front ++ .operator op :: rest) =
      (ofTokens front).passed.reverse ++ (releases front op).map Token.operator ++
        (rest.foldl push ⟨[], (ofTokens (front ++ [.operator op])).waiting⟩).drain := by
  have hcut : ofTokens (front ++ .operator op :: rest) =
      rest.foldl push ⟨(ofTokens (front ++ [.operator op])).passed,
        (ofTokens (front ++ [.operator op])).waiting⟩ := by
    rw [List.append_cons]
    exact (foldl_push_ofTokens _ _).symm
  rw [reorder_eq, hcut, drain_foldl_push, passed_ofTokens_concat_operator, List.reverse_append,
    List.reverse_reverse]

theorem reorder_eq_append (tokens : List (Token α)) :
    reorder tokens = (ofTokens tokens).passed.reverse ++
      ((lastMultiplicative? tokens).toList ++ (lastAdditive? tokens).toList).map Token.operator := by
  rw [reorder_eq, drain, waiting_ofTokens]

theorem reorder_operator_cons (op : Operator) (rest : List (Token α)) :
    reorder (.operator op :: rest) = (rest.foldl push ⟨[], [op]⟩).drain :=
  rfl

/-- The newest waiting operator, if it is multiplicative, passes before those below it. -/
theorem head?_drain_foldl_push {op : Operator} (hop : op.isAdditive = false) (below : List Operator)
    (rest : List (Token α)) {other : Operator}
    (hother : .operator other ∈ (rest.foldl push ⟨[], op :: below⟩).drain.head?) : other = op := by
  cases rest with
  | nil =>
    have hsame : (.operator op : Token α) = .operator other := Option.mem_some_iff.mp hother
    exact (Token.operator.inj hsame).symm
  | cons token rest =>
    rw [List.foldl_cons] at hother
    cases token with
    | number text value =>
      rw [push, drain_foldl_push] at hother
      cases hother
    | operator next =>
      have hle : next.precedence ≤ op.precedence := by
        rw [Operator.precedence_of_not_isAdditive hop]
        cases next <;> decide
      rw [push, released, List.takeWhile_cons_of_pos (by simpa using hle), drain_foldl_push] at hother
      have hsame : (.operator op : Token α) = .operator other := by simpa using hother
      exact (Token.operator.inj hsame).symm

end Yard

open Yard

/-- A list may be cut in front of an operator, and the parts reordered apart, just if the operator is
additive or no additive operator stands in the front part. -/
theorem reorder_append_operator_iff (front rest : List (Token α)) (op : Operator) :
    reorder (front ++ .operator op :: rest) = reorder front ++ reorder (.operator op :: rest) ↔
      op.isAdditive = true ∨ ∀ other ∈ operators front, other.isAdditive = false := by
  rw [← lastAdditive?_eq_none_iff, reorder_append_operator, reorder_operator_cons, reorder_eq_append front,
    waiting_ofTokens, lastMultiplicative?_concat_operator, lastAdditive?_concat_operator, releases]
  cases hop : op.isAdditive with
  | true => simp
  | false =>
    cases hadditive : lastAdditive? front with
    | none => simp
    | some other =>
      -- The additive operator that waits would have to pass before the arriving one.
      have hother : other.isAdditive = true := isAdditive_of_mem_lastAdditive? hadditive
      simp only [Bool.false_eq_true, if_false, reduceCtorEq, or_self, iff_false]
      intro hcut
      have hrest : (rest.foldl push ⟨[], [op, other]⟩).drain =
          .operator other :: (rest.foldl push ⟨[], [op]⟩).drain := by
        simpa using hcut
      have hsame : other = op := by
        refine head?_drain_foldl_push hop [other] rest ?_
        rw [hrest]
        rfl
      rw [hsame, hop] at hother
      cases hother

end FourFunction
