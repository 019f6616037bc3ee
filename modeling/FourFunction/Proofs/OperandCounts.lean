import Mathlib.Data.List.Find
import FourFunction.Expression.Calculation
import FourFunction.Proofs.Waiting

/-!
# Operand counts

Whether a list of tokens has a value, well-formed or not, and what is wrong if it has none, as a matter
of counting: `countVerdict` looks at the numbers and operators in front of each operator and never at a
yard or a stack.
-/

namespace FourFunction

variable {α : Type}

open Token

/-! ### Counting -/

namespace Token

def numberCount (tokens : List (Token α)) : Nat :=
  tokens.countP isNumber

def operatorCount (tokens : List (Token α)) : Nat :=
  (operators tokens).length

/-- One if there is an additive operator. -/
def additiveMark (tokens : List (Token α)) : Nat :=
  if (operators tokens).any Operator.isAdditive then 1 else 0

/-- One if the last operator is multiplicative. -/
def multiplicativeMark (tokens : List (Token α)) : Nat :=
  if (lastMultiplicative? tokens).isSome then 1 else 0

/-- An operator behind these tokens makes one that waits find an operand missing. -/
def Starves (tokens : List (Token α)) (op : Operator) : Prop :=
  if op.isAdditive then 1 ≤ operatorCount tokens ∧ numberCount tokens ≤ operatorCount tokens
  else 1 ≤ multiplicativeMark tokens ∧ numberCount tokens + additiveMark tokens ≤ operatorCount tokens

instance (tokens : List (Token α)) (op : Operator) : Decidable (Starves tokens op) := by
  unfold Starves
  infer_instance

/-- Whether the token at a position is an operator that starves one in front of it. -/
def starvesAt (tokens : List (Token α)) (position : Nat) : Bool :=
  match tokens[position]? with
  | some (.operator op) => decide (Starves (tokens.take position) op)
  | _ => false

def firstStarving? (tokens : List (Token α)) : Option Nat :=
  (List.range tokens.length).find? (starvesAt tokens)

/-- The answer that the counts foretell. -/
def countVerdict (tokens : List (Token α)) : Except CalculationError Unit :=
  match firstStarving? tokens with
  | some position => .error (.operandCount 2 (min (numberCount (tokens.take position)) 1))
  | none =>
    if 1 ≤ operatorCount tokens ∧ numberCount tokens ≤ operatorCount tokens then
      .error (.operandCount 2 (min (numberCount tokens) 1))
    else if numberCount tokens - operatorCount tokens = 1 then .ok ()
    else .error (.operandCount 1 (numberCount tokens - operatorCount tokens))

/-! ### Counts behind one more token -/

theorem numberCount_concat_number (tokens : List (Token α)) (text : Text) (value : α) :
    numberCount (tokens ++ [.number text value]) = numberCount tokens + 1 := by
  simp [numberCount, isNumber]

theorem numberCount_concat_operator (tokens : List (Token α)) (op : Operator) :
    numberCount (tokens ++ [.operator op]) = numberCount tokens := by
  simp [numberCount, isNumber]

theorem operatorCount_concat_number (tokens : List (Token α)) (text : Text) (value : α) :
    operatorCount (tokens ++ [.number text value]) = operatorCount tokens := by
  simp [operatorCount]

theorem operatorCount_concat_operator (tokens : List (Token α)) (op : Operator) :
    operatorCount (tokens ++ [.operator op]) = operatorCount tokens + 1 := by
  simp [operatorCount]

private theorem firstStarving?_concat (tokens : List (Token α)) (token : Token α) :
    firstStarving? (tokens ++ [token]) =
      (firstStarving? tokens).or
        (if starvesAt (tokens ++ [token]) tokens.length then some tokens.length else none) := by
  have hbefore : ∀ position ∈ List.range tokens.length,
      starvesAt (tokens ++ [token]) position = starvesAt tokens position := by
    intro position hposition
    have hlt := List.mem_range.mp hposition
    rw [starvesAt, starvesAt, List.getElem?_append_left hlt,
      List.take_append_of_le_length (Nat.le_of_lt hlt)]
  rw [firstStarving?, List.length_append, List.length_singleton, List.range_succ, List.find?_append,
    List.find?_congr hbefore, List.find?_singleton, firstStarving?]

theorem firstStarving?_concat_number (tokens : List (Token α)) (text : Text) (value : α) :
    firstStarving? (tokens ++ [.number text value]) = firstStarving? tokens := by
  simp [firstStarving?_concat, starvesAt]

theorem firstStarving?_concat_operator (tokens : List (Token α)) (op : Operator) :
    firstStarving? (tokens ++ [.operator op]) =
      (firstStarving? tokens).or (if Starves tokens op then some tokens.length else none) := by
  simp [firstStarving?_concat, starvesAt]

theorem lt_length_of_firstStarving? {tokens : List (Token α)} {position : Nat}
    (hstarving : firstStarving? tokens = some position) : position < tokens.length :=
  List.mem_range.mp (List.mem_of_find?_eq_some hstarving)

/-! ### Waiting operators by count -/

theorem additiveMark_concat_operator (tokens : List (Token α)) (op : Operator) :
    additiveMark (tokens ++ [.operator op]) = if op.isAdditive then 1 else additiveMark tokens := by
  cases hop : op.isAdditive <;> simp [additiveMark, hop]

theorem multiplicativeMark_concat_operator (tokens : List (Token α)) (op : Operator) :
    multiplicativeMark (tokens ++ [.operator op]) = if op.isAdditive then 0 else 1 := by
  cases hop : op.isAdditive <;> simp [multiplicativeMark, lastMultiplicative?_concat_operator, hop]

theorem length_lastMultiplicative? (tokens : List (Token α)) :
    (lastMultiplicative? tokens).toList.length = multiplicativeMark tokens := by
  cases hlast : lastMultiplicative? tokens <;> simp [multiplicativeMark, hlast]

theorem length_lastAdditive? (tokens : List (Token α)) :
    (lastAdditive? tokens).toList.length = additiveMark tokens := by
  rw [additiveMark, lastAdditive?]
  cases hlast : ((operators tokens).filter Operator.isAdditive).getLast? with
  | none =>
    rw [List.getLast?_eq_none_iff, List.filter_eq_nil_iff] at hlast
    simpa using hlast
  | some op =>
    have hop := List.mem_filter.mp (List.mem_of_getLast? hlast)
    rw [if_pos (List.any_eq_true.mpr ⟨op, hop⟩)]
    rfl

theorem length_waiting (tokens : List (Token α)) :
    (Yard.ofTokens tokens).waiting.length = multiplicativeMark tokens + additiveMark tokens := by
  rw [Yard.waiting_ofTokens, List.length_append, length_lastMultiplicative?, length_lastAdditive?]

theorem length_releases (tokens : List (Token α)) (op : Operator) :
    (Yard.releases tokens op).length =
      multiplicativeMark tokens + if op.isAdditive then additiveMark tokens else 0 := by
  rw [Yard.releases, List.length_append, length_lastMultiplicative?]
  cases op.isAdditive
  · rfl
  · rw [if_pos rfl, if_pos rfl, length_lastAdditive?]

/-- Some operator waits just if one has come. -/
theorem one_le_marks_iff (tokens : List (Token α)) :
    1 ≤ multiplicativeMark tokens + additiveMark tokens ↔ 1 ≤ operatorCount tokens := by
  induction tokens using List.reverseRecOn with
  | nil => simp [multiplicativeMark, additiveMark, operatorCount, lastMultiplicative?]
  | append_singleton tokens token ih =>
    cases token with
    | number text value =>
      rw [operatorCount_concat_number, ← ih, multiplicativeMark, lastMultiplicative?_concat_number,
        ← multiplicativeMark, additiveMark, operators_concat_number, ← additiveMark]
    | operator op =>
      rw [operatorCount_concat_operator, multiplicativeMark_concat_operator,
        additiveMark_concat_operator]
      split <;> omega

end Token

/-! ### Operators that meet a stack -/

variable (apply : Operator → α → α → α)

namespace Stack

def pushOperators (ops : List Operator) (stack : Stack α) : Except CalculationError (Stack α) :=
  (ops.map Token.operator).foldlM (Stack.push apply) stack

theorem pushOperators_of_room (ops : List Operator) (stack : Stack α)
    (hroom : ops = [] ∨ ops.length < stack.length) :
    ∃ rest, pushOperators apply ops stack = .ok rest ∧ rest.length + ops.length = stack.length := by
  induction ops generalizing stack with
  | nil => exact ⟨stack, rfl, rfl⟩
  | cons op ops ih =>
    match stack with
    | [] => simp at hroom
    | [value] => simp at hroom
    | right :: left :: below =>
      obtain ⟨rest, hrun, hlength⟩ := ih (apply op left right :: below) (by
        simp only [List.length_cons, reduceCtorEq, false_or] at hroom ⊢
        right
        omega)
      refine ⟨rest, hrun, ?_⟩
      simp only [List.length_cons] at hlength ⊢
      omega

theorem pushOperators_of_short (ops : List Operator) (stack : Stack α) (hops : ops ≠ [])
    (hshort : stack.length ≤ ops.length) :
    pushOperators apply ops stack = .error (.operandCount 2 (min stack.length 1)) := by
  induction ops generalizing stack with
  | nil => exact absurd rfl hops
  | cons op ops ih =>
    match stack with
    | [] => rfl
    | [value] => rfl
    | right :: left :: below =>
      have hrest : (apply op left right :: below).length ≤ ops.length := by simpa using hshort
      have hmore : ops ≠ [] := by
        intro hnil
        rw [hnil] at hrest
        simp at hrest
      have hfound : min (right :: left :: below).length 1 =
          min (apply op left right :: below).length 1 := by
        simp
      rw [hfound]
      exact ih (apply op left right :: below) hmore hrest

end Stack

/-! ### The run -/

/-- The stack after the tokens that have passed through the yard. -/
def passedRun (tokens : List (Token α)) : Except CalculationError (Stack α) :=
  (Yard.ofTokens tokens).passed.reverse.foldlM (Stack.push apply) []

theorem passedRun_concat_number (tokens : List (Token α)) (text : Text) (value : α) :
    passedRun apply (tokens ++ [.number text value]) =
      passedRun apply tokens >>= fun stack => .ok (value :: stack) := by
  rw [passedRun, Yard.passed_ofTokens_concat_number, List.reverse_cons, List.foldlM_append]
  rfl

theorem passedRun_concat_operator (tokens : List (Token α)) (op : Operator) :
    passedRun apply (tokens ++ [.operator op]) =
      passedRun apply tokens >>= Stack.pushOperators apply (Yard.releases tokens op) := by
  rw [passedRun, Yard.passed_ofTokens_concat_operator, List.reverse_append, List.reverse_reverse,
    List.foldlM_append]
  rfl

theorem evaluate_reorder_eq (tokens : List (Token α)) :
    evaluate apply (reorder tokens) =
      passedRun apply tokens >>= fun stack =>
        Stack.pushOperators apply (Yard.ofTokens tokens).waiting stack >>= Stack.result := by
  rw [evaluate, Yard.reorder_eq, Yard.drain, List.foldlM_append, bind_assoc]
  rfl

/-- The stack holds the numbers less those that the operators gone by have used up, and it is empty
only where no number has come. -/
def Tallies (tokens : List (Token α)) (stack : Stack α) : Prop :=
  stack.length + operatorCount tokens =
      numberCount tokens + (multiplicativeMark tokens + additiveMark tokens) ∧
    min stack.length 1 = min (numberCount tokens) 1

/-- The operators in front of an arrival run out of operands just if the arrival starves them. -/
theorem starves_iff {tokens : List (Token α)} {stack : Stack α} (htallies : Tallies tokens stack)
    (op : Operator) :
    Starves tokens op ↔
      Yard.releases tokens op ≠ [] ∧ stack.length ≤ (Yard.releases tokens op).length := by
  obtain ⟨hlength, _⟩ := htallies
  have hwaiting := one_le_marks_iff tokens
  rw [← List.length_pos_iff, length_releases, Starves]
  cases op.isAdditive
  · simp only [Bool.false_eq_true, if_false]
    have hmark : multiplicativeMark tokens ≤ 1 := by
      rw [multiplicativeMark]
      split <;> omega
    omega
  · simp only [if_true]
    omega

theorem Tallies.concat_operator {tokens : List (Token α)} {stack rest : Stack α}
    (htallies : Tallies tokens stack) {op : Operator} (hfed : ¬Starves tokens op)
    (hrest : rest.length + (Yard.releases tokens op).length = stack.length) :
    Tallies (tokens ++ [.operator op]) rest := by
  rw [starves_iff htallies, ← List.length_pos_iff] at hfed
  obtain ⟨hlength, hempty⟩ := htallies
  rw [length_releases] at hfed hrest
  rw [Tallies, operatorCount_concat_operator, numberCount_concat_operator,
    multiplicativeMark_concat_operator, additiveMark_concat_operator]
  cases hop : op.isAdditive
  · simp only [hop, Bool.false_eq_true, if_false] at hfed hrest ⊢
    omega
  · simp only [hop, if_true] at hfed hrest ⊢
    omega

theorem Tallies.concat_number {tokens : List (Token α)} {stack : Stack α}
    (htallies : Tallies tokens stack) (text : Text) (value : α) :
    Tallies (tokens ++ [.number text value]) (value :: stack) := by
  obtain ⟨hlength, _⟩ := htallies
  have hmarks : multiplicativeMark (tokens ++ [.number text value]) = multiplicativeMark tokens ∧
      additiveMark (tokens ++ [.number text value]) = additiveMark tokens := by
    simp [multiplicativeMark, lastMultiplicative?_concat_number, additiveMark]
  rw [Tallies, operatorCount_concat_number, numberCount_concat_number, hmarks.1, hmarks.2,
    List.length_cons]
  omega

theorem passedRun_of_not_starving (tokens : List (Token α))
    (hstarving : firstStarving? tokens = none) :
    ∃ stack, passedRun apply tokens = .ok stack ∧ Tallies tokens stack := by
  induction tokens using List.reverseRecOn with
  | nil => exact ⟨[], rfl, rfl, rfl⟩
  | append_singleton tokens token ih =>
    cases token with
    | number text value =>
      rw [firstStarving?_concat_number] at hstarving
      obtain ⟨stack, hrun, htallies⟩ := ih hstarving
      refine ⟨value :: stack, ?_, htallies.concat_number text value⟩
      rw [passedRun_concat_number, hrun]
      rfl
    | operator op =>
      rw [firstStarving?_concat_operator, Option.or_eq_none_iff] at hstarving
      obtain ⟨stack, hrun, htallies⟩ := ih hstarving.1
      have hfed : ¬Starves tokens op := by simpa using hstarving.2
      have hroom : Yard.releases tokens op = [] ∨
          (Yard.releases tokens op).length < stack.length := by
        have hnot := mt (starves_iff htallies op).mpr hfed
        by_cases hnone : Yard.releases tokens op = []
        · exact .inl hnone
        · exact .inr (Nat.lt_of_not_le fun hle => hnot ⟨hnone, hle⟩)
      obtain ⟨rest, hpush, hrest⟩ := Stack.pushOperators_of_room apply _ stack hroom
      refine ⟨rest, ?_, htallies.concat_operator hfed hrest⟩
      rw [passedRun_concat_operator, hrun]
      exact hpush

theorem passedRun_of_starving (tokens : List (Token α)) (position : Nat)
    (hstarving : firstStarving? tokens = some position) :
    passedRun apply tokens = .error (.operandCount 2 (min (numberCount (tokens.take position)) 1)) := by
  induction tokens using List.reverseRecOn with
  | nil => cases hstarving
  | append_singleton tokens token ih =>
    have hearlier (hfront : firstStarving? tokens = some position) :
        passedRun apply (tokens ++ [token]) =
          .error (.operandCount 2 (min (numberCount ((tokens ++ [token]).take position)) 1)) := by
      rw [List.take_append_of_le_length (Nat.le_of_lt (lt_length_of_firstStarving? hfront))]
      cases token with
      | number text value =>
        rw [passedRun_concat_number, ih hfront]
        rfl
      | operator op =>
        rw [passedRun_concat_operator, ih hfront]
        rfl
    cases token with
    | number text value =>
      rw [firstStarving?_concat_number] at hstarving
      exact hearlier hstarving
    | operator op =>
      rw [firstStarving?_concat_operator, Option.or_eq_some_iff] at hstarving
      rcases hstarving with hfront | ⟨hfront, hhere⟩
      · exact hearlier hfront
      · -- The arriving operator is the first to starve one: what it releases outlasts the stack.
        obtain ⟨hstarves, rfl⟩ : Starves tokens op ∧ tokens.length = position := by simpa using hhere
        obtain ⟨stack, hrun, htallies⟩ := passedRun_of_not_starving apply tokens hfront
        obtain ⟨hsome, hshort⟩ := (starves_iff htallies op).mp hstarves
        rw [passedRun_concat_operator, hrun, List.take_left, ← htallies.2]
        exact Stack.pushOperators_of_short apply _ stack hsome hshort

/-! ### The verdict -/

theorem Stack.result_map_eq (stack : Stack α) :
    stack.result.map (fun _ => ()) =
      if stack.length = 1 then .ok () else .error (.operandCount 1 stack.length) := by
  match stack with
  | [] => rfl
  | [value] => rfl
  | right :: left :: below => rfl

/-- The counts foretell the answer for any list of tokens. -/
theorem evaluate_reorder_countVerdict (tokens : List (Token α)) :
    (evaluate apply (reorder tokens)).map (fun _ => ()) = countVerdict tokens := by
  rw [countVerdict]
  cases hstarving : firstStarving? tokens with
  | some position =>
    rw [evaluate_reorder_eq, passedRun_of_starving apply tokens position hstarving]
    rfl
  | none =>
    obtain ⟨stack, hrun, hlength, hempty⟩ := passedRun_of_not_starving apply tokens hstarving
    have hevaluate : evaluate apply (reorder tokens) =
        Stack.pushOperators apply (Yard.ofTokens tokens).waiting stack >>= Stack.result := by
      rw [evaluate_reorder_eq, hrun]
      rfl
    have hwaiting := length_waiting tokens
    have hmarks := one_le_marks_iff tokens
    by_cases hshort : 1 ≤ operatorCount tokens ∧ numberCount tokens ≤ operatorCount tokens
    · have hsome : (Yard.ofTokens tokens).waiting ≠ [] := by
        rw [← List.length_pos_iff]
        omega
      rw [hevaluate, Stack.pushOperators_of_short apply _ stack hsome (by omega), hempty]
      simp only [hshort, and_self, if_true]
      rfl
    · have hroom : (Yard.ofTokens tokens).waiting = [] ∨
          (Yard.ofTokens tokens).waiting.length < stack.length := by
        rw [← List.length_eq_zero_iff]
        omega
      obtain ⟨rest, hdrain, hrest⟩ := Stack.pushOperators_of_room apply _ stack hroom
      have hleft : rest.length = numberCount tokens - operatorCount tokens := by omega
      rw [hevaluate, hdrain]
      simp only [hshort, if_false]
      rw [← hleft]
      exact Stack.result_map_eq rest

theorem exists_value_iff (tokens : List (Token α)) :
    (∃ value, evaluate apply (reorder tokens) = .ok value) ↔ countVerdict tokens = .ok () := by
  rw [← evaluate_reorder_countVerdict apply tokens]
  cases evaluate apply (reorder tokens) <;> simp [Except.map]

theorem counts_of_countVerdict {tokens : List (Token α)} (hverdict : countVerdict tokens = .ok ()) :
    numberCount tokens = operatorCount tokens + 1 := by
  rw [countVerdict] at hverdict
  split at hverdict
  · cases hverdict
  · split at hverdict
    · cases hverdict
    · split at hverdict
      · omega
      · cases hverdict

theorem calculate_eq_ok_iff {text : Text} {value : Binary64} :
    calculate text = .ok value ↔
      ∃ tokens, Token.ofText text = .ok tokens ∧
        evaluate Operator.apply (reorder tokens) = .ok value := by
  rw [calculate, reorderText]
  cases Token.ofText text with
  | error error => simp [Except.map, bind, Except.bind]
  | ok tokens => simp [Except.map, bind, Except.bind]

/-- The outcome of any list of tokens is the one its counts foretell, whatever the operators mean; a
text has a value just if its lexemes are tokens with the verdict of a value. -/
theorem outcome_by_counts :
    (∀ {α : Type} (apply : Operator → α → α → α) (tokens : List (Token α)),
      (evaluate apply (reorder tokens)).map (fun _ => ()) = countVerdict tokens) ∧
    ∀ text : Text, (∃ value, calculate text = .ok value) ↔
      ∃ tokens, Token.ofText text = .ok tokens ∧ countVerdict tokens = .ok () := by
  refine ⟨evaluate_reorder_countVerdict, ?_⟩
  intro text
  simp only [calculate_eq_ok_iff, ← exists_value_iff Operator.apply]
  constructor
  · intro hanswer
    obtain ⟨value, tokens, htokens, hvalue⟩ := hanswer
    exact ⟨tokens, htokens, value, hvalue⟩
  · intro hanswer
    obtain ⟨tokens, htokens, value, hvalue⟩ := hanswer
    exact ⟨value, tokens, htokens, hvalue⟩

end FourFunction
