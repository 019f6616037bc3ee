import Mathlib.Data.Nat.Find
import FourFunction.Proofs.ArrangedTrees
import FourFunction.Proofs.OperandCounts

/-!
# Evaluation of any list of tokens

A list whose operators never lack an operand is a forest, each tree with its operators last, and a stack
holds the values of the trees. There are as many as the numbers outnumber the operators. So a list has a
value just if it is a single tree with its operators last, and every other list fails at its first
operator that lacks an operand, or at the end.
-/

namespace FourFunction

variable {α : Type}

/-! ### Balance -/

namespace Token

/-- The numbers less the operators. -/
def balance (tokens : List (Token α)) : Int :=
  numberCount tokens - operatorCount tokens

theorem balance_concat_number (tokens : List (Token α)) (text : Text) (value : α) :
    balance (tokens ++ [.number text value]) = balance tokens + 1 := by
  rw [balance, balance, numberCount_concat_number, operatorCount_concat_number]
  omega

theorem balance_concat_operator (tokens : List (Token α)) (op : Operator) :
    balance (tokens ++ [.operator op]) = balance tokens - 1 := by
  rw [balance, balance, numberCount_concat_operator, operatorCount_concat_operator]
  omega

/-- At the position stands an operator with fewer than two operands in front of it. -/
def IsShortAt (tokens : List (Token α)) (position : Nat) : Prop :=
  ∃ op, tokens[position]? = some (.operator op) ∧ balance (tokens.take position) < 2

/-- Every operator has two operands in front of it. -/
def IsFed (tokens : List (Token α)) : Prop :=
  ∀ position, ¬IsShortAt tokens position

theorem isShortAt_append_iff (front rest : List (Token α)) {position : Nat}
    (hposition : position < front.length) :
    IsShortAt (front ++ rest) position ↔ IsShortAt front position := by
  rw [IsShortAt, IsShortAt, List.getElem?_append_left hposition,
    List.take_append_of_le_length (Nat.le_of_lt hposition)]

theorem isShortAt_length_iff (front : List (Token α)) (token : Token α) (rest : List (Token α)) :
    IsShortAt (front ++ token :: rest) front.length ↔
      ∃ op, token = .operator op ∧ balance front < 2 := by
  simp [IsShortAt]

theorem IsFed.of_append {front rest : List (Token α)} (hfed : IsFed (front ++ rest)) : IsFed front := by
  intro position hshort
  by_cases hposition : position < front.length
  · exact hfed position ((isShortAt_append_iff front rest hposition).mpr hshort)
  · obtain ⟨op, hop, _⟩ := hshort
    rw [List.getElem?_eq_none (Nat.le_of_not_lt hposition)] at hop
    cases hop

theorem IsFed.two_le_balance {front : List (Token α)} {op : Operator}
    (hfed : IsFed (front ++ [.operator op])) : 2 ≤ balance front := by
  by_contra hfew
  exact hfed front.length ((isShortAt_length_iff front _ []).mpr ⟨op, rfl, by omega⟩)

/-- What stands in front of the first short operator is fed. -/
theorem isFed_take {tokens : List (Token α)} {position : Nat}
    (hfirst : ∀ earlier < position, ¬IsShortAt tokens earlier) : IsFed (tokens.take position) := by
  intro earlier hshort
  have hlt : earlier < (tokens.take position).length := by
    obtain ⟨op, hop, _⟩ := hshort
    exact (List.getElem?_eq_some_iff.mp hop).1
  have htokens := (isShortAt_append_iff (tokens.take position) (tokens.drop position) hlt).mpr hshort
  rw [List.take_append_drop] at htokens
  exact hfirst earlier (by simp at hlt; omega) htokens

theorem exists_first_isShortAt {tokens : List (Token α)} (hshort : ¬IsFed tokens) :
    ∃ position, IsShortAt tokens position ∧ ∀ earlier < position, ¬IsShortAt tokens earlier := by
  classical
  have hsome : ∃ position, IsShortAt tokens position := by
    simpa [IsFed] using hshort
  exact ⟨Nat.find hsome, Nat.find_spec hsome, fun earlier hearlier => Nat.find_min hsome hearlier⟩

end Token

open Token

/-! ### Forests -/

namespace Tree

/-- The tokens of trees that are newest first, each tree with its operators last. -/
def forestTokens : List (Tree α) → List (Token α)
  | [] => []
  | tree :: older => forestTokens older ++ tree.operatorLast

theorem exists_forest_of_isFed {tokens : List (Token α)} (hfed : IsFed tokens) :
    ∃ forest : List (Tree α), forestTokens forest = tokens ∧ forest.length = balance tokens := by
  induction tokens using List.reverseRecOn with
  | nil => exact ⟨[], rfl, rfl⟩
  | append_singleton front token ih =>
    obtain ⟨forest, hforest, hlength⟩ := ih hfed.of_append
    cases token with
    | number text value =>
      refine ⟨.leaf text value :: forest, ?_, ?_⟩
      · rw [forestTokens, hforest, operatorLast]
      · rw [balance_concat_number, List.length_cons]
        omega
    | operator op =>
      -- The operator joins the two newest trees, and its balance says that there are two.
      have htwo : 2 ≤ forest.length := by
        have hbalance := hfed.two_le_balance
        omega
      rcases forest with _ | ⟨right, _ | ⟨left, older⟩⟩
      · simp at htwo
      · simp at htwo
      · refine ⟨.node op left right :: older, ?_, ?_⟩
        · rw [← hforest]
          simp [forestTokens, operatorLast]
        · rw [balance_concat_operator, ← hlength]
          simp

end Tree

/-! ### Evaluation of a forest -/

variable (apply : Operator → α → α → α)

theorem Stack.foldlM_push_forestTokens (forest : List (Tree α)) :
    (Tree.forestTokens forest).foldlM (Stack.push apply) [] = .ok (forest.map (Tree.value apply)) := by
  induction forest with
  | nil => rfl
  | cons tree older ih =>
    rw [Tree.forestTokens, List.foldlM_append, ih]
    exact Stack.foldlM_push_operatorLast apply tree _

theorem Stack.push_operator_of_short {stack : Stack α} (hshort : stack.length < 2) (op : Operator) :
    Stack.push apply stack (.operator op) = .error (.operandCount 2 stack.length) := by
  match stack, hshort with
  | [], _ => rfl
  | [value], _ => rfl

theorem Stack.result_of_length_ne_one {stack : Stack α} (hlength : stack.length ≠ 1) :
    stack.result = .error (.operandCount 1 stack.length) := by
  match stack, hlength with
  | [], _ => rfl
  | right :: left :: older, _ => rfl

theorem evaluate_forestTokens (forest : List (Tree α)) :
    evaluate apply (Tree.forestTokens forest) = Stack.result (forest.map (Tree.value apply)) := by
  rw [evaluate, Stack.foldlM_push_forestTokens]
  rfl

theorem evaluate_of_isShortAt {tokens : List (Token α)} {position : Nat}
    (hshort : IsShortAt tokens position) (hfirst : ∀ earlier < position, ¬IsShortAt tokens earlier) :
    ∃ found : Nat, found = balance (tokens.take position) ∧
      evaluate apply tokens = .error (.operandCount 2 found) := by
  obtain ⟨op, hop, hfew⟩ := hshort
  obtain ⟨forest, hforest, hlength⟩ := Tree.exists_forest_of_isFed (isFed_take hfirst)
  refine ⟨forest.length, hlength, ?_⟩
  obtain ⟨hlt, hget⟩ := List.getElem?_eq_some_iff.mp hop
  have htokens : Tree.forestTokens forest ++ .operator op :: tokens.drop (position + 1) = tokens := by
    rw [hforest, ← hget, ← List.drop_eq_getElem_cons hlt, List.take_append_drop]
  have hstack : (forest.map (Tree.value apply)).length < 2 := by
    rw [List.length_map]
    omega
  have hfails := Stack.push_operator_of_short apply hstack op
  rw [List.length_map] at hfails
  rw [← htokens, evaluate, List.foldlM_append, Stack.foldlM_push_forestTokens]
  show ((Stack.push apply _ (.operator op) >>= _) >>= _) = _
  rw [hfails]
  rfl

theorem exists_tree_of_evaluate {tokens : List (Token α)} {value : α}
    (hvalue : evaluate apply tokens = .ok value) :
    ∃ tree : Tree α, tree.operatorLast = tokens ∧ tree.value apply = value := by
  by_cases hfed : IsFed tokens
  · obtain ⟨forest, rfl, _⟩ := Tree.exists_forest_of_isFed hfed
    rw [evaluate_forestTokens] at hvalue
    match forest, hvalue with
    | [tree], hvalue => exact ⟨tree, rfl, Except.ok.inj hvalue⟩
  · obtain ⟨position, hshort, hfirst⟩ := exists_first_isShortAt hfed
    obtain ⟨found, _, herror⟩ := evaluate_of_isShortAt apply hshort hfirst
    rw [herror] at hvalue
    cases hvalue

theorem evaluate_of_isFed {tokens : List (Token α)} (hfed : IsFed tokens)
    (hnone : ∀ tree : Tree α, tree.operatorLast ≠ tokens) :
    ∃ found : Nat, found = balance tokens ∧ evaluate apply tokens = .error (.operandCount 1 found) := by
  obtain ⟨forest, rfl, hlength⟩ := Tree.exists_forest_of_isFed hfed
  have hmany : (forest.map (Tree.value apply)).length ≠ 1 := by
    rw [List.length_map]
    intro hone
    obtain ⟨tree, rfl⟩ := List.length_eq_one_iff.mp hone
    exact hnone tree rfl
  refine ⟨forest.length, hlength, ?_⟩
  rw [evaluate_forestTokens, Stack.result_of_length_ne_one hmany, List.length_map]

/-- A list has a value just if it is a tree with its operators last, and then it is no other tree's
list and the value is that of the tree. Else the error names how many operands the first operator found
that found fewer than two; if there is none, how many are left at the end. -/
theorem evaluate_unique_tree (tokens : List (Token α)) :
    (∀ value, evaluate apply tokens = .ok value ↔
      ∃ tree : Tree α, tree.operatorLast = tokens ∧
        (∀ other : Tree α, other.operatorLast = tokens → other = tree) ∧ tree.value apply = value) ∧
    (∀ position, IsShortAt tokens position → (∀ earlier < position, ¬IsShortAt tokens earlier) →
      ∃ found : Nat, found = balance (tokens.take position) ∧
        evaluate apply tokens = .error (.operandCount 2 found)) ∧
    ((∀ tree : Tree α, tree.operatorLast ≠ tokens) → (∀ position, ¬IsShortAt tokens position) →
      ∃ found : Nat, found = balance tokens ∧
        evaluate apply tokens = .error (.operandCount 1 found)) := by
  refine ⟨?_, ?_, ?_⟩
  · intro value
    constructor
    · intro hvalue
      obtain ⟨tree, rfl, rfl⟩ := exists_tree_of_evaluate apply hvalue
      exact ⟨tree, rfl, fun other hother => Tree.operatorLast_injective hother, rfl⟩
    · intro htree
      obtain ⟨tree, rfl, _, rfl⟩ := htree
      exact evaluate_operatorLast apply tree
  · intro position hshort hfirst
    exact evaluate_of_isShortAt apply hshort hfirst
  · intro hnone hfed
    exact evaluate_of_isFed apply hfed hnone

/-- The tokens `7 2 3 * -`, then `1 + 2`, whose operator finds one operand, and then `1 2`. -/
theorem evaluate_unique_tree_cases :
    let apply (op : Operator) (left right : Nat) : Nat := if op.isAdditive then left - right else left * right
    let token (digit : Char) (value : Nat) : Token Nat := .number [digit] value
    let whole := [token '7' 7, token '2' 2, token '3' 3, .operator .multiply, .operator .subtract]
    let short := [token '1' 1, .operator .add, token '2' 2]
    let rest := [token '1' 1, token '2' 2]
    (evaluate apply whole = .ok 1 ∧ ∃ tree : Tree Nat, tree.operatorLast = whole ∧
      (∀ other : Tree Nat, other.operatorLast = whole → other = tree) ∧ tree.value apply = 1) ∧
    (IsShortAt short 1 ∧ (∀ earlier < 1, ¬IsShortAt short earlier) ∧
      ∃ found : Nat, found = balance (short.take 1) ∧
        evaluate apply short = .error (.operandCount 2 found)) ∧
    (∀ tree : Tree Nat, tree.operatorLast ≠ rest) ∧ (∀ position, ¬IsShortAt rest position) ∧
      ∃ found : Nat, found = balance rest ∧ evaluate apply rest = .error (.operandCount 1 found) := by
  intro apply token whole short rest
  have hwhole : evaluate apply whole = .ok 1 := rfl
  have hshort : IsShortAt short 1 := ⟨.add, rfl, by decide⟩
  have hfirst : ∀ earlier < 1, ¬IsShortAt short earlier := by
    intro earlier hearlier
    obtain rfl : earlier = 0 := by omega
    rintro ⟨op, hop, _⟩
    cases hop
  have hnone : ∀ tree : Tree Nat, tree.operatorLast ≠ rest := by
    intro tree htree
    have hvalue := evaluate_operatorLast apply tree
    rw [htree] at hvalue
    cases hvalue
  have hfed : ∀ position, ¬IsShortAt rest position := by
    rintro position ⟨op, hop, _⟩
    have hmem := List.mem_of_getElem? hop
    simp [rest, token] at hmem
  exact ⟨⟨hwhole, ((evaluate_unique_tree apply whole).1 1).mp hwhole⟩,
    ⟨hshort, hfirst, (evaluate_unique_tree apply short).2.1 1 hshort hfirst⟩,
    hnone, hfed, (evaluate_unique_tree apply rest).2.2 hnone hfed⟩

end FourFunction
