import FourFunction.Expression.Stack
import FourFunction.Expression.Tree
import FourFunction.Proofs.Waiting

/-!
# Trees, reordering and evaluation

The two passes of a calculation as facts about trees: reordering takes an arranged tree from its order
of entry to operators last, and a stack evaluates operators last to the value of the tree. What is proved
here of a tree holds in front of any further tokens and above any stack, so the facts compose.
-/

namespace FourFunction

variable {α : Type}

/-- Every child may stand on the left of an additive operator. -/
theorem Tree.fitsLeft_of_isAdditive {op : Operator} (hop : op.isAdditive = true) (tree : Tree α) :
    Tree.FitsLeft op tree := by
  cases tree with
  | leaf => trivial
  | node child _ _ =>
    have hlowest := Operator.precedence_of_isAdditive hop
    exact Nat.le_trans (Nat.le_of_eq hlowest) child.one_le_precedence

/-! ### Evaluation -/

/-- Above any stack, the tokens of a tree leave its value. -/
theorem Stack.foldlM_push_operatorLast (apply : Operator → α → α → α) (tree : Tree α)
    (stack : Stack α) :
    tree.operatorLast.foldlM (Stack.push apply) stack = .ok (tree.value apply :: stack) := by
  induction tree generalizing stack with
  | leaf text value => rfl
  | node op left right ihleft ihright =>
    rw [Tree.operatorLast, List.foldlM_append, List.foldlM_append, ihleft]
    show (right.operatorLast.foldlM (Stack.push apply) (left.value apply :: stack) >>= _) = _
    rw [ihright]
    rfl

theorem evaluate_operatorLast (apply : Operator → α → α → α) (tree : Tree α) :
    evaluate apply tree.operatorLast = .ok (tree.value apply) := by
  rw [evaluate, Stack.foldlM_push_operatorLast]
  rfl

/-! ### Reordering -/

namespace Yard

/-- What the yard has done after the tokens of an arranged tree: part of the tree has passed, the
operators still pending bind at least as tightly as its root, and the operators that waited before
wait on. -/
theorem foldl_push_inOrder (tree : Tree α) (harranged : tree.IsArranged) (passed : List (Token α))
    (waiting : List Operator) (hwaiting : ∀ op ∈ waiting.head?, Tree.FitsRight op tree) :
    ∃ (front : List (Token α)) (pending : List Operator),
      front ++ pending.map Token.operator = tree.operatorLast ∧
      (∀ op, Tree.FitsLeft op tree → ∀ other ∈ pending, op.precedence ≤ other.precedence) ∧
      tree.inOrder.foldl Yard.push ⟨passed, waiting⟩ =
        ⟨front.reverse ++ passed, pending ++ waiting⟩ := by
  induction tree generalizing passed waiting with
  | leaf text value => exact ⟨[.number text value], [], rfl, by simp, rfl⟩
  | node op left right ihleft ihright =>
    obtain ⟨hleft, hright, hleftArranged, hrightArranged⟩ := harranged
    have hbelow : ∀ other ∈ waiting.head?, other.precedence < op.precedence := hwaiting
    have hwaitingLeft : ∀ other ∈ waiting.head?, Tree.FitsRight other left := by
      intro other hother
      cases left with
      | leaf => trivial
      | node child _ _ => exact Nat.lt_of_lt_of_le (hbelow other hother) hleft
    obtain ⟨front, pending, horder, hpending, hrun⟩ := ihleft hleftArranged passed waiting hwaitingLeft
    -- The root arrives: all that is left of the left child leaves, so the right child starts above
    -- the root.
    obtain ⟨frontRight, pendingRight, horderRight, hpendingRight, hrunRight⟩ :=
      ihright hrightArranged (left.operatorLast.reverse ++ passed) (op :: waiting) (by simpa using hright)
    refine ⟨left.operatorLast ++ frontRight, pendingRight ++ [op], ?_, ?_, ?_⟩
    · simp [Tree.operatorLast, ← horderRight]
    · intro outer houter other hother
      have hroot : outer.precedence ≤ op.precedence := houter
      rcases List.mem_append.mp hother with hother | hother
      · refine Nat.le_trans hroot (hpendingRight op ?_ other hother)
        cases right with
        | leaf => trivial
        | node child _ _ => exact Nat.le_of_lt hright
      · rw [List.mem_singleton.mp hother]
        exact hroot
    · rw [Tree.inOrder, List.foldl_append, hrun, List.foldl_cons,
        push_operator_of_split _ _ _ _ (hpending op hleft) hbelow, ← List.append_assoc,
        ← List.reverse_append, horder, hrunRight]
      simp

end Yard

theorem reorder_inOrder (tree : Tree α) (harranged : tree.IsArranged) :
    reorder tree.inOrder = tree.operatorLast := by
  obtain ⟨front, pending, horder, _, hrun⟩ := Yard.foldl_push_inOrder tree harranged [] [] (by simp)
  rw [reorder, Yard.empty, hrun, Yard.drain, ← horder]
  simp

end FourFunction
