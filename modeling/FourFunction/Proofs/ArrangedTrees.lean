import FourFunction.Proofs.ChainTree

/-!
# The tree of an expression

Reordering is parsing. An alternating list of tokens is the order of entry of one arranged tree and of no
other, and reordering gives that tree with its operators last. Nothing of the tree is lost on the way: a
stack whose operators build trees takes operators last back to it.
-/

namespace FourFunction

variable {α : Type}

/-! ### Alternating lists -/

/-- Numbers and operators in turn, from a number to a number. -/
inductive Alternates : List (Token α) → Prop
  | number (text : Text) (value : α) : Alternates [.number text value]
  | link (text : Text) (value : α) (op : Operator) {rest : List (Token α)} (hrest : Alternates rest) :
      Alternates (.number text value :: .operator op :: rest)

theorem Alternates.append {left right : List (Token α)} (hleft : Alternates left) (op : Operator)
    (hright : Alternates right) : Alternates (left ++ .operator op :: right) := by
  induction hleft with
  | number text value => exact .link text value op hright
  | link text value first _ ih => exact .link text value first ih

theorem Tree.alternates_inOrder (tree : Tree α) : Alternates tree.inOrder := by
  induction tree with
  | leaf text value => exact .number text value
  | node op left right ihleft ihright => exact ihleft.append op ihright

theorem Alternates.exists_chain {tokens : List (Token α)} (htokens : Alternates tokens) :
    ∃ chain : Chain α, chain.tokens = tokens := by
  induction htokens with
  | number text value => exact ⟨⟨⟨text, value⟩, []⟩, rfl⟩
  | link text value op _ ih =>
    obtain ⟨chain, rfl⟩ := ih
    exact ⟨⟨⟨text, value⟩, (op, chain.first) :: chain.links⟩, rfl⟩

theorem Alternates.exists_tree {tokens : List (Token α)} (htokens : Alternates tokens) :
    ∃ tree : Tree α, tree.IsArranged ∧ tree.inOrder = tokens := by
  obtain ⟨chain, rfl⟩ := htokens.exists_chain
  exact ⟨chain.tree, chain.isArranged_tree, chain.inOrder_tree⟩

/-! ### Back to the tree -/

/-- A number as the leaf that it is. -/
def Token.withLeaf : Token α → Token (Tree α)
  | number text value => number text (.leaf text value)
  | operator op => operator op

namespace Tree

/-- Every leaf with itself as its value. -/
def withLeaves : Tree α → Tree (Tree α)
  | leaf text value => leaf text (leaf text value)
  | node op left right => node op left.withLeaves right.withLeaves

theorem value_withLeaves (tree : Tree α) : tree.withLeaves.value node = tree := by
  induction tree with
  | leaf text value => rfl
  | node op left right ihleft ihright => rw [withLeaves, value, ihleft, ihright]

theorem operatorLast_withLeaves (tree : Tree α) :
    tree.withLeaves.operatorLast = tree.operatorLast.map Token.withLeaf := by
  induction tree with
  | leaf text value => rfl
  | node op left right ihleft ihright =>
    rw [withLeaves, operatorLast, operatorLast, ihleft, ihright, List.map_append, List.map_append]
    rfl

theorem evaluate_withLeaves_operatorLast (tree : Tree α) :
    evaluate node (tree.operatorLast.map Token.withLeaf) = .ok tree := by
  rw [← operatorLast_withLeaves, evaluate_operatorLast, value_withLeaves]

theorem operatorLast_injective {left right : Tree α} (hsame : left.operatorLast = right.operatorLast) :
    left = right := by
  have hleft := left.evaluate_withLeaves_operatorLast
  rw [hsame, evaluate_withLeaves_operatorLast] at hleft
  exact (Except.ok.inj hleft).symm

/-- Both are what reordering makes of the same tokens. -/
theorem eq_of_inOrder_eq {left right : Tree α} (hleft : left.IsArranged) (hright : right.IsArranged)
    (hsame : left.inOrder = right.inOrder) : left = right := by
  apply operatorLast_injective
  rw [← reorder_inOrder left hleft, ← reorder_inOrder right hright, hsame]

end Tree

theorem Alternates.reorder_injective {left right : List (Token α)} (hleft : Alternates left)
    (hright : Alternates right) (hsame : reorder left = reorder right) : left = right := by
  obtain ⟨leftTree, hleftArranged, rfl⟩ := hleft.exists_tree
  obtain ⟨rightTree, hrightArranged, rfl⟩ := hright.exists_tree
  rw [reorder_inOrder _ hleftArranged, reorder_inOrder _ hrightArranged] at hsame
  rw [Tree.operatorLast_injective hsame]

/-- An alternating list is the order of entry of exactly one arranged tree, and reordering gives that
tree with its operators last. Every arranged tree is reached in this way, and no two alternating lists
are reordered alike. -/
theorem reorder_unique_tree :
    (∀ tokens : List (Token α), Alternates tokens →
      ∃ tree : Tree α, tree.IsArranged ∧ tree.inOrder = tokens ∧ reorder tokens = tree.operatorLast ∧
        ∀ other : Tree α, other.IsArranged → other.inOrder = tokens → other = tree) ∧
    (∀ tree : Tree α, tree.IsArranged →
      Alternates tree.inOrder ∧ reorder tree.inOrder = tree.operatorLast) ∧
    ∀ left right : List (Token α), Alternates left → Alternates right →
      reorder left = reorder right → left = right := by
  refine ⟨?_, ?_, ?_⟩
  · intro tokens htokens
    obtain ⟨tree, harranged, rfl⟩ := htokens.exists_tree
    refine ⟨tree, harranged, rfl, reorder_inOrder tree harranged, ?_⟩
    intro other hother hsame
    exact Tree.eq_of_inOrder_eq hother harranged hsame
  · intro tree harranged
    exact ⟨tree.alternates_inOrder, reorder_inOrder tree harranged⟩
  · intro left right hleft hright hsame
    exact hleft.reorder_injective hright hsame

/-- The tokens of `9 - 8 / 4 * 2 - 1` and their tree. -/
theorem reorder_unique_tree_mixed :
    let leaf (digit : Char) (value : Nat) : Tree Nat := .leaf [digit] value
    let product := Tree.node .multiply (.node .divide (leaf '8' 8) (leaf '4' 4)) (leaf '2' 2)
    let tree := Tree.node .subtract (.node .subtract (leaf '9' 9) product) (leaf '1' 1)
    let tokens : List (Token Nat) :=
      [.number ['9'] 9, .operator .subtract, .number ['8'] 8, .operator .divide, .number ['4'] 4,
        .operator .multiply, .number ['2'] 2, .operator .subtract, .number ['1'] 1]
    Alternates tokens ∧ tree.IsArranged ∧ tree.inOrder = tokens ∧ reorder tokens = tree.operatorLast ∧
      ∀ other : Tree Nat, other.IsArranged → other.inOrder = tokens → other = tree := by
  intro leaf product tree tokens
  have htokens : Alternates tokens :=
    .link _ _ _ (.link _ _ _ (.link _ _ _ (.link _ _ _ (.number _ _))))
  have harranged : tree.IsArranged := by decide
  obtain ⟨parsed, _, _, hreorder, hunique⟩ := reorder_unique_tree.1 tokens htokens
  have hparsed : tree = parsed := hunique tree harranged rfl
  rw [← hparsed] at hreorder hunique
  exact ⟨htokens, harranged, rfl, hreorder, hunique⟩

end FourFunction
