import Mathlib.Data.List.Induction
import FourFunction.Expression.Shunting

/-!
# The operators that wait

Which operators wait in a yard is a matter of the operators that have arrived: the last one if it is
multiplicative, and below it the last additive one. So an additive arrival releases everything, and a
multiplicative one at most the operator just before it. At no time do more than two operators wait.
-/

namespace FourFunction

variable {α : Type}

/-! ### Precedence -/

namespace Operator

theorem precedence_of_isAdditive {op : Operator} (hop : op.isAdditive = true) : op.precedence = 1 := by
  simp [precedence, hop]

theorem precedence_of_not_isAdditive {op : Operator} (hop : op.isAdditive = false) :
    op.precedence = 2 := by
  simp [precedence, hop]

theorem one_le_precedence (op : Operator) : 1 ≤ op.precedence := by
  cases op <;> decide

theorem precedence_le_two (op : Operator) : op.precedence ≤ 2 := by
  cases op <;> decide

end Operator

/-! ### The operators among tokens -/

namespace Token

def operator? : Token α → Option Operator
  | number .. => none
  | operator op => some op

/-- The operators among tokens, in order. -/
def operators (tokens : List (Token α)) : List Operator :=
  tokens.filterMap operator?

@[simp]
theorem operators_nil : operators ([] : List (Token α)) = [] :=
  rfl

@[simp]
theorem operators_concat_number (tokens : List (Token α)) (text : Text) (value : α) :
    operators (tokens ++ [.number text value]) = operators tokens := by
  simp [operators, operator?]

@[simp]
theorem operators_concat_operator (tokens : List (Token α)) (op : Operator) :
    operators (tokens ++ [.operator op]) = operators tokens ++ [op] := by
  simp [operators, operator?]

theorem mem_operators_iff {tokens : List (Token α)} {op : Operator} :
    op ∈ operators tokens ↔ .operator op ∈ tokens := by
  have hspells : ∀ token : Token α, token.operator? = some op ↔ token = .operator op := by
    intro token
    cases token <;> simp [operator?]
  simp [operators, hspells]

/-- The last operator, if it is multiplicative. -/
def lastMultiplicative? (tokens : List (Token α)) : Option Operator :=
  (operators tokens).getLast?.filter fun op => !op.isAdditive

def lastAdditive? (tokens : List (Token α)) : Option Operator :=
  ((operators tokens).filter Operator.isAdditive).getLast?

theorem lastAdditive?_eq_none_iff {tokens : List (Token α)} :
    lastAdditive? tokens = none ↔ ∀ op ∈ operators tokens, op.isAdditive = false := by
  simp [lastAdditive?]

theorem lastMultiplicative?_concat_number (tokens : List (Token α)) (text : Text) (value : α) :
    lastMultiplicative? (tokens ++ [.number text value]) = lastMultiplicative? tokens := by
  rw [lastMultiplicative?, operators_concat_number, lastMultiplicative?]

theorem lastAdditive?_concat_number (tokens : List (Token α)) (text : Text) (value : α) :
    lastAdditive? (tokens ++ [.number text value]) = lastAdditive? tokens := by
  rw [lastAdditive?, operators_concat_number, lastAdditive?]

theorem lastMultiplicative?_concat_operator (tokens : List (Token α)) (op : Operator) :
    lastMultiplicative? (tokens ++ [.operator op]) = if op.isAdditive then none else some op := by
  cases hop : op.isAdditive <;> simp [lastMultiplicative?, Option.filter, hop]

theorem lastAdditive?_concat_operator (tokens : List (Token α)) (op : Operator) :
    lastAdditive? (tokens ++ [.operator op]) =
      if op.isAdditive then some op else lastAdditive? tokens := by
  cases hop : op.isAdditive <;> simp [lastAdditive?, List.filter_append, hop]

end Token

/-! ### The yard after any tokens -/

namespace Yard

open Token

def ofTokens (tokens : List (Token α)) : Yard α :=
  tokens.foldl push empty

theorem ofTokens_concat (tokens : List (Token α)) (token : Token α) :
    ofTokens (tokens ++ [token]) = (ofTokens tokens).push token := by
  rw [ofTokens, ofTokens, List.foldl_append, List.foldl_cons, List.foldl_nil]

theorem reorder_eq (tokens : List (Token α)) : reorder tokens = (ofTokens tokens).drain :=
  rfl

/-- An operator that binds no more tightly than any of the `pending` operators, but more tightly than
the first of the `waiting` ones, releases just the pending ones. -/
theorem push_operator_of_split (passed : List (Token α)) (pending waiting : List Operator)
    (op : Operator)
    (hpending : ∀ other ∈ pending, op.precedence ≤ other.precedence)
    (hwaiting : ∀ other ∈ waiting.head?, other.precedence < op.precedence) :
    Yard.push ⟨passed, pending ++ waiting⟩ (.operator op) =
      ⟨(pending.map Token.operator).reverse ++ passed, op :: waiting⟩ := by
  have hstop : waiting.takeWhile (op.precedence ≤ ·.precedence) = [] ∧
      waiting.dropWhile (op.precedence ≤ ·.precedence) = waiting := by
    cases waiting with
    | nil => exact ⟨rfl, rfl⟩
    | cons other rest =>
      have hlt : other.precedence < op.precedence := hwaiting other rfl
      simp [hlt]
  have hall : ∀ other ∈ pending, decide (op.precedence ≤ other.precedence) = true := by
    simpa using hpending
  rw [Yard.push, released, held, List.takeWhile_append_of_pos hall, List.dropWhile_append_of_pos hall,
    hstop.1, hstop.2, List.append_nil]

/-- Releases of an operator that arrives behind tokens. -/
def releases (tokens : List (Token α)) (op : Operator) : List Operator :=
  (lastMultiplicative? tokens).toList ++ if op.isAdditive then (lastAdditive? tokens).toList else []

theorem isAdditive_of_mem_lastMultiplicative? {tokens : List (Token α)} {op : Operator}
    (hop : op ∈ lastMultiplicative? tokens) : op.isAdditive = false := by
  simpa using (Option.mem_filter_iff.mp hop).2

theorem isAdditive_of_mem_lastAdditive? {tokens : List (Token α)} {op : Operator}
    (hop : op ∈ lastAdditive? tokens) : op.isAdditive = true :=
  (List.mem_filter.mp (List.mem_of_getLast? hop)).2

/-- An arrival at a yard in which the operators wait that the tokens before it leave waiting. -/
theorem push_operator_of_waiting (tokens : List (Token α)) (passed : List (Token α)) (op : Operator) :
    Yard.push ⟨passed, (lastMultiplicative? tokens).toList ++ (lastAdditive? tokens).toList⟩ (.operator op) =
      ⟨((releases tokens op).map Token.operator).reverse ++ passed,
        (lastMultiplicative? (tokens ++ [.operator op])).toList ++
          (lastAdditive? (tokens ++ [.operator op])).toList⟩ := by
  rw [lastMultiplicative?_concat_operator, lastAdditive?_concat_operator, releases]
  cases hop : op.isAdditive
  · rw [push_operator_of_split]
    · simp
    · intro other hother
      have hmult := isAdditive_of_mem_lastMultiplicative? (Option.mem_toList.mp hother)
      have hsame : op.precedence = other.precedence := by
        rw [Operator.precedence_of_not_isAdditive hop, Operator.precedence_of_not_isAdditive hmult]
      exact Nat.le_of_eq hsame
    · intro other hother
      have hadd := isAdditive_of_mem_lastAdditive? (Option.mem_toList.mp (List.mem_of_mem_head? hother))
      rw [Operator.precedence_of_not_isAdditive hop, Operator.precedence_of_isAdditive hadd]
      decide
  · rw [← List.append_nil (_ ++ _), push_operator_of_split]
    · simp
    · intro other _
      rw [Operator.precedence_of_isAdditive hop]
      exact other.one_le_precedence
    · simp

theorem waiting_ofTokens (tokens : List (Token α)) :
    (ofTokens tokens).waiting =
      (lastMultiplicative? tokens).toList ++ (lastAdditive? tokens).toList := by
  induction tokens using List.reverseRecOn with
  | nil => rfl
  | append_singleton tokens token ih =>
    rw [ofTokens_concat]
    cases token with
    | number text value =>
      rw [lastMultiplicative?_concat_number, lastAdditive?_concat_number]
      exact ih
    | operator op =>
      have harrival := push_operator_of_waiting tokens (ofTokens tokens).passed op
      rw [← ih] at harrival
      exact congrArg Yard.waiting harrival

/-! ### Falling precedence -/

/-- Of two operators that wait, the newer binds more tightly. -/
def IsFalling (yard : Yard α) : Prop :=
  yard.waiting.Pairwise fun newer older => older.precedence < newer.precedence

theorem released_append_held (yard : Yard α) (op : Operator) :
    yard.released op ++ yard.held op = yard.waiting :=
  List.takeWhile_append_dropWhile

/-- The first operator that is held stops the release, and those below it bind less tightly still. -/
theorem IsFalling.precedence_lt_of_mem_held {yard : Yard α} (hfalling : yard.IsFalling) {op : Operator} :
    ∀ other ∈ yard.held op, other.precedence < op.precedence := by
  obtain ⟨passed, waiting⟩ := yard
  change waiting.Pairwise _ at hfalling
  change ∀ other ∈ waiting.dropWhile (op.precedence ≤ ·.precedence), other.precedence < op.precedence
  induction waiting with
  | nil => simp
  | cons newest older ih =>
    obtain ⟨hnewest, holder⟩ := List.pairwise_cons.mp hfalling
    by_cases hle : op.precedence ≤ newest.precedence
    · rw [List.dropWhile_cons_of_pos (by simpa using hle)]
      exact ih holder
    · have hlt : newest.precedence < op.precedence := Nat.lt_of_not_le hle
      rw [List.dropWhile_cons_of_neg (by simpa using hle)]
      intro other hother
      rcases List.mem_cons.mp hother with rfl | hother
      · exact hlt
      · exact Nat.lt_trans (hnewest other hother) hlt

theorem IsFalling.push {yard : Yard α} (hfalling : yard.IsFalling) (token : Token α) :
    (yard.push token).IsFalling := by
  cases token with
  | number text value => exact hfalling
  | operator op =>
    have hheld : (yard.held op).Sublist yard.waiting := List.dropWhile_sublist _
    exact List.pairwise_cons.mpr
      ⟨hfalling.precedence_lt_of_mem_held, List.Pairwise.sublist hheld hfalling⟩

theorem isFalling_ofTokens (tokens : List (Token α)) : (ofTokens tokens).IsFalling := by
  induction tokens using List.reverseRecOn with
  | nil => exact List.Pairwise.nil
  | append_singleton tokens token ih =>
    rw [ofTokens_concat]
    exact ih.push token

/-- There are only two tiers to fall through. -/
theorem IsFalling.length_le_two {yard : Yard α} (hfalling : yard.IsFalling) : yard.waiting.length ≤ 2 := by
  obtain ⟨passed, waiting⟩ := yard
  rcases waiting with _ | ⟨newest, _ | ⟨older, _ | ⟨oldest, rest⟩⟩⟩
  · exact Nat.zero_le 2
  · exact Nat.le_succ 1
  · exact Nat.le_refl 2
  · obtain ⟨hnewest, hrest⟩ := List.pairwise_cons.mp hfalling
    obtain ⟨holder, _⟩ := List.pairwise_cons.mp hrest
    have hfirst : older.precedence < newest.precedence := hnewest older (by simp)
    have hsecond : oldest.precedence < older.precedence := holder oldest (by simp)
    have hlow := oldest.one_le_precedence
    have hhigh := newest.precedence_le_two
    omega

/-! ### What has passed -/

theorem passed_ofTokens_concat_number (tokens : List (Token α)) (text : Text) (value : α) :
    (ofTokens (tokens ++ [.number text value])).passed =
      .number text value :: (ofTokens tokens).passed := by
  rw [ofTokens_concat]
  rfl

theorem passed_ofTokens_concat_operator (tokens : List (Token α)) (op : Operator) :
    (ofTokens (tokens ++ [.operator op])).passed =
      ((releases tokens op).map Token.operator).reverse ++ (ofTokens tokens).passed := by
  have harrival := push_operator_of_waiting tokens (ofTokens tokens).passed op
  rw [← waiting_ofTokens] at harrival
  rw [ofTokens_concat]
  exact congrArg Yard.passed harrival

/-! ### The newest operator and the additive one -/

theorem head?_waiting_ofTokens (tokens : List (Token α)) :
    (ofTokens tokens).waiting.head? = (operators tokens).getLast? := by
  induction tokens using List.reverseRecOn with
  | nil => rfl
  | append_singleton tokens token ih =>
    rw [ofTokens_concat]
    cases token with
    | number text value =>
      rw [operators_concat_number]
      exact ih
    | operator op =>
      rw [operators_concat_operator, List.getLast?_concat]
      rfl

theorem waiting_ofTokens_eq_nil_iff (tokens : List (Token α)) :
    (ofTokens tokens).waiting = [] ↔ ∀ op, .operator op ∉ tokens := by
  rw [← List.head?_eq_none_iff, head?_waiting_ofTokens, List.getLast?_eq_none_iff,
    List.eq_nil_iff_forall_not_mem]
  simp only [mem_operators_iff]

theorem filter_isAdditive_waiting_ofTokens (tokens : List (Token α)) :
    (ofTokens tokens).waiting.filter Operator.isAdditive = (lastAdditive? tokens).toList := by
  have hmultiplicative : (lastMultiplicative? tokens).toList.filter Operator.isAdditive = [] := by
    refine List.filter_eq_nil_iff.mpr fun op hop => ?_
    rw [isAdditive_of_mem_lastMultiplicative? (Option.mem_toList.mp hop)]
    exact Bool.false_ne_true
  have hadditive : (lastAdditive? tokens).toList.filter Operator.isAdditive = (lastAdditive? tokens).toList :=
    List.filter_eq_self.mpr fun op hop => isAdditive_of_mem_lastAdditive? (Option.mem_toList.mp hop)
  rw [waiting_ofTokens, List.filter_append, hmultiplicative, hadditive, List.nil_append]

theorem exists_isAdditive_waiting_iff (tokens : List (Token α)) :
    (∃ op ∈ (ofTokens tokens).waiting, op.isAdditive = true) ↔
      ∃ op, .operator op ∈ tokens ∧ op.isAdditive = true := by
  constructor
  · rintro ⟨op, hop, hadditive⟩
    have hlast : op ∈ (lastAdditive? tokens).toList :=
      filter_isAdditive_waiting_ofTokens tokens ▸ List.mem_filter.mpr ⟨hop, hadditive⟩
    have harrived := List.mem_of_getLast? (Option.mem_toList.mp hlast)
    exact ⟨op, mem_operators_iff.mp (List.mem_filter.mp harrived).1, hadditive⟩
  · rintro ⟨op, hop, hadditive⟩
    cases hlast : lastAdditive? tokens with
    | none =>
      have hkind := lastAdditive?_eq_none_iff.mp hlast op (mem_operators_iff.mpr hop)
      exact absurd hadditive (ne_true_of_eq_false hkind)
    | some last =>
      refine ⟨last, ?_, isAdditive_of_mem_lastAdditive? hlast⟩
      rw [waiting_ofTokens, hlast]
      exact List.mem_append_right _ (List.mem_singleton.mpr rfl)

end Yard

open Token Yard

/-- The operators that wait bind the more tightly the newer they are, so there are two of them at most, a
multiplicative one above an additive one. None waits just if none has arrived. The newest one is the last
that has arrived, and an additive one waits as soon as one has arrived: the last of them. -/
theorem operators_waiting (tokens : List (Token α)) :
    let yard := ofTokens tokens
    yard.IsFalling ∧ yard.waiting.length ≤ 2 ∧
    (∃ multiplicative additive : Option Operator,
      yard.waiting = multiplicative.toList ++ additive.toList ∧
      (∀ op ∈ multiplicative, op.isAdditive = false) ∧ ∀ op ∈ additive, op.isAdditive = true) ∧
    (yard.waiting = [] ↔ ∀ op, .operator op ∉ tokens) ∧
    yard.waiting.head? = (operators tokens).getLast? ∧
    ((∃ op ∈ yard.waiting, op.isAdditive = true) ↔ ∃ op, .operator op ∈ tokens ∧ op.isAdditive = true) ∧
    yard.waiting.filter Operator.isAdditive = (lastAdditive? tokens).toList := by
  intro yard
  have hfalling : yard.IsFalling := isFalling_ofTokens tokens
  refine ⟨hfalling, hfalling.length_le_two, ?_, waiting_ofTokens_eq_nil_iff tokens,
    head?_waiting_ofTokens tokens, exists_isAdditive_waiting_iff tokens,
    filter_isAdditive_waiting_ofTokens tokens⟩
  refine ⟨lastMultiplicative? tokens, lastAdditive? tokens, waiting_ofTokens tokens, ?_, ?_⟩
  · intro op hop
    exact isAdditive_of_mem_lastMultiplicative? hop
  · intro op hop
    exact isAdditive_of_mem_lastAdditive? hop

end FourFunction
