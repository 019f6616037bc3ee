import FourFunction.Proofs.Forests

/-!
# Evaluation past failures

A stack that goes on when a push has failed. The failing operator takes two operands where one at most is
left, so nothing of the tokens up to it remains, and the stack goes on as one that has just begun. So all
that can be seen of a stack is decided by the tokens behind the last failure, and by how many numbers and
operators there are among them whether the next operator fails.
-/

namespace FourFunction

variable {α : Type} (apply : Operator → α → α → α)

open Token

namespace Stack

/-! ### One push -/

theorem next_of_ok {stack rest : Stack α} {token : Token α} (hpush : push apply stack token = .ok rest) :
    next apply stack token = rest := by
  rw [next, hpush]

theorem push_operator_eq_error_iff {stack : Stack α} {op : Operator} {error : CalculationError} :
    push apply stack (.operator op) = .error error ↔
      stack.length < 2 ∧ error = .operandCount 2 stack.length := by
  rcases stack with _ | ⟨right, _ | ⟨left, older⟩⟩
  · simp [push, eq_comm]
  · simp [push, eq_comm]
  · simp [push]

/-- A failing operator finds one operand at most, so taking two of them empties the stack. -/
theorem next_of_error {stack : Stack α} {token : Token α} {error : CalculationError}
    (hpush : push apply stack token = .error error) : next apply stack token = [] := by
  cases token with
  | number text value => cases hpush
  | operator op =>
    have hshort := ((push_operator_eq_error_iff apply).mp hpush).1
    rw [next, hpush]
    exact List.drop_eq_nil_of_le (Nat.le_of_lt hshort)

/-! ### The tokens since the last failure -/

/-- The stack after tokens that are pushed one by one, whether or not a push fails. -/
def run (tokens : List (Token α)) : Stack α :=
  tokens.foldl (next apply) []

theorem run_concat (tokens : List (Token α)) (token : Token α) :
    run apply (tokens ++ [token]) = next apply (run apply tokens) token := by
  rw [run, run, List.foldl_append, List.foldl_cons, List.foldl_nil]

/-- Whether the push of the token at a position fails. -/
def failsAt (tokens : List (Token α)) (position : Nat) : Bool :=
  match tokens[position]? with
  | some token => !(push apply (run apply (tokens.take position)) token).isOk
  | none => false

def failures (tokens : List (Token α)) : List Nat :=
  (List.range tokens.length).filter (failsAt apply tokens)

/-- The tokens behind the last one whose push fails, all of them if none does. -/
def sinceFailure (tokens : List (Token α)) : List (Token α) :=
  match (failures apply tokens).getLast? with
  | some position => tokens.drop (position + 1)
  | none => tokens

theorem failures_concat (tokens : List (Token α)) (token : Token α) :
    failures apply (tokens ++ [token]) =
      failures apply tokens ++
        if (push apply (run apply tokens) token).isOk then [] else [tokens.length] := by
  have hbefore : ∀ position ∈ List.range tokens.length,
      failsAt apply (tokens ++ [token]) position = failsAt apply tokens position := by
    intro position hposition
    have hlt := List.mem_range.mp hposition
    rw [failsAt, failsAt, List.getElem?_append_left hlt, List.take_append_of_le_length (Nat.le_of_lt hlt)]
  have hhere : failsAt apply (tokens ++ [token]) tokens.length =
      !(push apply (run apply tokens) token).isOk := by
    simp [failsAt]
  rw [failures, List.length_append, List.length_singleton, List.range_succ, List.filter_append,
    List.filter_congr hbefore, failures, List.filter_cons, hhere]
  cases (push apply (run apply tokens) token).isOk <;> rfl

theorem sinceFailure_concat_of_ok {tokens : List (Token α)} {token : Token α} {stack : Stack α}
    (hpush : push apply (run apply tokens) token = .ok stack) :
    sinceFailure apply (tokens ++ [token]) = sinceFailure apply tokens ++ [token] := by
  have hfailures : failures apply (tokens ++ [token]) = failures apply tokens := by
    rw [failures_concat, hpush]
    exact List.append_nil _
  rw [sinceFailure, sinceFailure, hfailures]
  cases hlast : (failures apply tokens).getLast? with
  | none => rfl
  | some position =>
    have hlt : position < tokens.length :=
      List.mem_range.mp (List.mem_filter.mp (List.mem_of_getLast? hlast)).1
    exact List.drop_append_of_le_length hlt

theorem sinceFailure_concat_of_error {tokens : List (Token α)} {token : Token α} {error : CalculationError}
    (hpush : push apply (run apply tokens) token = .error error) :
    sinceFailure apply (tokens ++ [token]) = [] := by
  have hfailures : failures apply (tokens ++ [token]) = failures apply tokens ++ [tokens.length] := by
    rw [failures_concat, hpush]
    rfl
  rw [sinceFailure, hfailures, List.getLast?_concat]
  simp

/-! ### The run -/

/-- None of the tokens since the last failure fails on a stack of their own, and they leave the stack of
the whole run. -/
theorem foldlM_push_sinceFailure (tokens : List (Token α)) :
    (sinceFailure apply tokens).foldlM (push apply) [] = .ok (run apply tokens) := by
  induction tokens using List.reverseRecOn with
  | nil => rfl
  | append_singleton tokens token ih =>
    cases hpush : push apply (run apply tokens) token with
    | ok stack =>
      rw [sinceFailure_concat_of_ok apply hpush, run_concat, next_of_ok apply hpush, List.foldlM_append, ih]
      show push apply (run apply tokens) token >>= pure = .ok stack
      rw [bind_pure, hpush]
    | error error =>
      rw [sinceFailure_concat_of_error apply hpush, run_concat, next_of_error apply hpush]
      rfl

theorem foldl_next_of_foldlM_push {tokens : List (Token α)} {start stack : Stack α}
    (hrun : tokens.foldlM (push apply) start = .ok stack) : tokens.foldl (next apply) start = stack := by
  induction tokens generalizing start with
  | nil => exact Except.ok.inj hrun
  | cons token tokens ih =>
    rw [List.foldlM_cons] at hrun
    cases hpush : push apply start token with
    | ok middle =>
      rw [hpush] at hrun
      rw [List.foldl_cons, next_of_ok apply hpush]
      exact ih hrun
    | error error =>
      rw [hpush] at hrun
      cases hrun

/-- Tokens without a failure are a forest, and the stack holds a value for each tree. -/
theorem balance_of_foldlM_push {tokens : List (Token α)} {stack : Stack α}
    (hrun : tokens.foldlM (push apply) [] = .ok stack) : balance tokens = stack.length := by
  by_cases hfed : IsFed tokens
  · obtain ⟨forest, rfl, hlength⟩ := Tree.exists_forest_of_isFed hfed
    rw [foldlM_push_forestTokens] at hrun
    rw [← Except.ok.inj hrun, List.length_map, hlength]
  · obtain ⟨position, hshort, hfirst⟩ := exists_first_isShortAt hfed
    obtain ⟨found, _, herror⟩ := evaluate_of_isShortAt apply hshort hfirst
    rw [evaluate, hrun] at herror
    change stack.result = .error (.operandCount 2 found) at herror
    by_cases hone : stack.length = 1
    · obtain ⟨value, rfl⟩ := List.length_eq_one_iff.mp hone
      cases herror
    · rw [result_of_length_ne_one hone] at herror
      simp at herror

end Stack

open Stack

/-- A stack that goes on past failures is at any time the stack of the tokens since the last failure alone.
It gives the answer of those tokens, and the next operator fails just if fewer than two of their numbers are
left, which the error tells. -/
theorem evaluation_past_failures (tokens : List (Token α)) :
    run apply tokens = run apply (sinceFailure apply tokens) ∧
    (run apply tokens).result = evaluate apply (sinceFailure apply tokens) ∧
    ∀ op error, push apply (run apply tokens) (.operator op) = .error error ↔
      ∃ found : Nat, balance (sinceFailure apply tokens) = found ∧ found < 2 ∧
        error = .operandCount 2 found := by
  have hrun := foldlM_push_sinceFailure apply tokens
  refine ⟨(foldl_next_of_foldlM_push apply hrun).symm, ?_, ?_⟩
  · rw [evaluate, hrun]
    rfl
  · intro op error
    rw [push_operator_eq_error_iff, balance_of_foldlM_push apply hrun]
    constructor
    · intro hshort
      exact ⟨_, rfl, hshort⟩
    · rintro ⟨found, hfound, hshort⟩
      obtain rfl := Int.ofNat.inj hfound
      exact hshort

end FourFunction
