import FourFunction.Expression.Chain
import FourFunction.Proofs.Trees

/-!
# The tree of a chain

The two-tier value of a chain, read with operators that build trees, is a tree: in order it is the chain,
it is arranged, and its value is the value of the chain for every meaning of the operators. So what is
known of reordering and evaluating arranged trees carries over to chains.
-/

namespace FourFunction

variable {α β : Type}

namespace Chain

/-! ### Cutting links into terms -/

/-- A term with its values replaced. -/
def Term.map (f : α → β) (term : Term α) : Term β :=
  ⟨term.op, f term.first, term.run.map fun link => (link.1, f link.2)⟩

theorem terms_map (f : α → β) (links : List (Operator × α)) :
    terms (links.map fun link => (link.1, f link.2)) =
      ((terms links).1.map fun link => (link.1, f link.2), (terms links).2.map (Term.map f)) := by
  induction links with
  | nil => rfl
  | cons link links ih =>
    obtain ⟨op, value⟩ := link
    simp only [List.map_cons, terms, ih]
    split <;> rfl

/-- The links of a term, the one that adds it first. -/
def Term.links (term : Term α) : List (Operator × α) :=
  (term.op, term.first) :: term.run

theorem terms_links (links : List (Operator × α)) :
    (terms links).1 ++ (terms links).2.flatMap Term.links = links := by
  induction links with
  | nil => rfl
  | cons link links ih =>
    obtain ⟨op, value⟩ := link
    cases hop : op.isAdditive
    · simpa [terms, hop] using ih
    · simpa [terms, hop, Term.links] using ih

/-- Runs hold no additive operator and terms start with one. Their values are values of links. -/
theorem forall_terms (P : α → Prop) (links : List (Operator × α)) (hlinks : ∀ link ∈ links, P link.2) :
    (∀ link ∈ (terms links).1, link.1.isAdditive = false ∧ P link.2) ∧
    ∀ term ∈ (terms links).2, term.op.isAdditive = true ∧ P term.first ∧
      ∀ link ∈ term.run, link.1.isAdditive = false ∧ P link.2 := by
  induction links with
  | nil => simp [terms]
  | cons link links ih =>
    obtain ⟨op, value⟩ := link
    obtain ⟨hvalue, hlinks⟩ := List.forall_mem_cons.mp hlinks
    obtain ⟨hrun, hterms⟩ := ih hlinks
    cases hop : op.isAdditive
    · have hcut : terms ((op, value) :: links) =
          ((op, value) :: (terms links).1, (terms links).2) := by
        simp [terms, hop]
      rw [hcut]
      exact ⟨List.forall_mem_cons.mpr ⟨⟨hop, hvalue⟩, hrun⟩, hterms⟩
    · have hcut : terms ((op, value) :: links) =
          ([], ⟨op, value, (terms links).1⟩ :: (terms links).2) := by
        simp [terms, hop]
      rw [hcut]
      exact ⟨by simp, List.forall_mem_cons.mpr ⟨⟨hop, hvalue, hrun⟩, hterms⟩⟩

/-! ### Folding links -/

theorem map_foldLinks (f : α → β) (applyLeft : Operator → α → α → α)
    (applyRight : Operator → β → β → β)
    (hf : ∀ op left right, f (applyLeft op left right) = applyRight op (f left) (f right))
    (first : α) (links : List (Operator × α)) :
    f (foldLinks applyLeft first links) =
      foldLinks applyRight (f first) (links.map fun link => (link.1, f link.2)) := by
  induction links generalizing first with
  | nil => rfl
  | cons link links ih =>
    simp only [foldLinks, List.foldl_cons, List.map_cons] at ih ⊢
    rw [ih, hf]

theorem inOrder_foldLinks (first : Tree α) (links : List (Operator × Tree α)) :
    (foldLinks .node first links).inOrder =
      first.inOrder ++ links.flatMap fun link => .operator link.1 :: link.2.inOrder := by
  induction links generalizing first with
  | nil => simp [foldLinks]
  | cons link links ih =>
    simp only [foldLinks, List.foldl_cons, List.flatMap_cons] at ih ⊢
    rw [ih, Tree.inOrder, List.append_assoc]

/-- Links of one tier, here that of `tier`, arrange their operands to the left. -/
theorem isArranged_foldLinks (tier : Operator) (first : Tree α) (links : List (Operator × Tree α))
    (hfirst : first.IsArranged) (hfits : Tree.FitsLeft tier first)
    (hlinks : ∀ link ∈ links, link.1.precedence = tier.precedence ∧ link.2.IsArranged ∧
      Tree.FitsRight tier link.2) :
    (foldLinks .node first links).IsArranged ∧ Tree.FitsLeft tier (foldLinks .node first links) := by
  induction links generalizing first with
  | nil => exact ⟨hfirst, hfits⟩
  | cons link links ih =>
    obtain ⟨op, right⟩ := link
    obtain ⟨⟨htier, hright, hfitsRight⟩, hlinks⟩ := List.forall_mem_cons.mp hlinks
    refine ih (.node op first right) ⟨?_, ?_, hfirst, hright⟩ (Nat.le_of_eq htier.symm) hlinks
    · cases first with
      | leaf => trivial
      | node child _ _ => exact Nat.le_trans (Nat.le_of_eq htier) hfits
    · cases right with
      | leaf => trivial
      | node child _ _ => exact Nat.lt_of_le_of_lt (Nat.le_of_eq htier) hfitsRight

/-! ### The tree -/

/-- The chain with every operand as a leaf. -/
def leaves (chain : Chain α) : Chain (Tree α) :=
  let leaf (operand : Operand α) : Operand (Tree α) := ⟨operand.text, .leaf operand.text operand.value⟩
  ⟨leaf chain.first, chain.links.map fun link => (link.1, leaf link.2)⟩

/-- The two-tier value, with operators that build trees. -/
def tree (chain : Chain α) : Tree α :=
  chain.leaves.value .node

theorem value_eq (apply : Operator → α → α → α) (chain : Chain α) :
    chain.value apply =
      foldLinks apply
        (foldLinks apply chain.first.value (terms (chain.links.map fun link => (link.1, link.2.value))).1)
        ((terms (chain.links.map fun link => (link.1, link.2.value))).2.map fun term =>
          (term.op, foldLinks apply term.first term.run)) :=
  rfl

theorem value_tree (apply : Operator → α → α → α) (chain : Chain α) :
    chain.tree.value apply = chain.value apply := by
  have hfold := map_foldLinks (Tree.value apply) Tree.node apply (fun _ _ _ => rfl)
  have hvalues : (chain.links.map fun link => (link.1, link.2.value)) =
      (chain.leaves.links.map fun link => (link.1, link.2.value)).map fun link =>
        (link.1, link.2.value apply) := by
    simp [leaves, Tree.value]
  rw [tree, value_eq, value_eq, hfold, hfold, hvalues, terms_map (Tree.value apply), List.map_map,
    List.map_map]
  refine congrArg (foldLinks apply _) (List.map_congr_left fun term _ => ?_)
  simp [Term.map, hfold]

theorem linkTokens_eq (links : List (Operator × Operand α)) :
    linkTokens links = links.flatMap fun link => [.operator link.1, link.2.token] := by
  induction links with
  | nil => rfl
  | cons link links ih =>
    rw [linkTokens, ih]
    rfl

theorem inOrder_tree (chain : Chain α) : chain.tree.inOrder = chain.tokens := by
  let links := chain.leaves.links.map fun link => (link.1, link.2.value)
  have hterms : ∀ rest : List (Term (Tree α)),
      (rest.map fun term => (term.op, foldLinks Tree.node term.first term.run)).flatMap
        (fun link => .operator link.1 :: link.2.inOrder) =
      (rest.flatMap Term.links).flatMap fun link => .operator link.1 :: link.2.inOrder := by
    intro rest
    simp only [List.flatMap_map, List.flatMap_assoc, inOrder_foldLinks, Term.links, List.flatMap_cons,
      List.cons_append]
  rw [tree, value_eq, inOrder_foldLinks, inOrder_foldLinks, hterms, List.append_assoc,
    ← List.flatMap_append, terms_links, tokens, linkTokens_eq]
  simp [leaves, Tree.inOrder, Operand.token, List.flatMap_map]

/-- A leaf with a run of multiplicative links fits on either side of an additive operator. -/
private theorem isArranged_run (text : Text) (value : α) (run : List (Operator × Tree α))
    (hrun : ∀ link ∈ run, link.1.isAdditive = false ∧ ∃ text value, link.2 = .leaf text value) :
    (foldLinks .node (.leaf text value) run).IsArranged ∧
      Tree.FitsRight .add (foldLinks .node (.leaf text value) run) := by
  have hlinks : ∀ link ∈ run, link.1.precedence = Operator.multiply.precedence ∧ link.2.IsArranged ∧
      Tree.FitsRight .multiply link.2 := by
    intro link hlink
    obtain ⟨hop, _, _, hleaf⟩ := hrun link hlink
    rw [hleaf]
    exact ⟨Operator.precedence_of_not_isAdditive hop, trivial, trivial⟩
  obtain ⟨harranged, hfits⟩ :=
    isArranged_foldLinks .multiply (.leaf text value) run trivial trivial hlinks
  refine ⟨harranged, ?_⟩
  cases htree : foldLinks .node (.leaf text value) run with
  | leaf => trivial
  | node child left right =>
    rw [htree] at hfits
    exact hfits

theorem isArranged_tree (chain : Chain α) : chain.tree.IsArranged := by
  have hleaves : ∀ link ∈ chain.leaves.links.map (fun link => (link.1, link.2.value)),
      ∃ text value, link.2 = Tree.leaf text value := by
    intro link hlink
    simp only [leaves, List.map_map, List.mem_map] at hlink
    obtain ⟨source, _, rfl⟩ := hlink
    exact ⟨source.2.text, source.2.value, rfl⟩
  obtain ⟨hrun, hterms⟩ := forall_terms (fun tree => ∃ text value, tree = Tree.leaf text value) _ hleaves
  have hfirst := isArranged_run chain.first.text chain.first.value _ hrun
  rw [tree, value_eq]
  refine (isArranged_foldLinks .add _ _ hfirst.1 (Tree.fitsLeft_of_isAdditive rfl _) ?_).1
  intro link hlink
  obtain ⟨term, hterm, rfl⟩ := List.mem_map.mp hlink
  obtain ⟨hop, ⟨text, value, hvalue⟩, htermRun⟩ := hterms term hterm
  rw [hvalue]
  exact ⟨Operator.precedence_of_isAdditive hop, isArranged_run text value term.run htermRun⟩

end Chain

/-- The passes of a calculation give a chain its two-tier value, whatever the operators mean. -/
theorem evaluate_reorder_tokens (apply : Operator → α → α → α) (chain : Chain α) :
    evaluate apply (reorder chain.tokens) = .ok (chain.value apply) := by
  rw [← chain.inOrder_tree, reorder_inOrder _ chain.isArranged_tree, evaluate_operatorLast,
    chain.value_tree]

end FourFunction
