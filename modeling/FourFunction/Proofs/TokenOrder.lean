import Mathlib.Data.List.Perm.Basic
import FourFunction.Proofs.Waiting

/-!
# The order of reordered tokens

What reordering may move, for any list of tokens, an expression or not. Each token is followed from its
place among the tokens to its place among the reordered ones. It gets ahead of an earlier token only if it
binds more tightly: a number ahead of operators, a multiplicative operator ahead of additive ones. So the
tokens of one tier stay in order, and no operator gets ahead of a number.
-/

namespace FourFunction

variable {α : Type}

/-! ### Tiers of tokens -/

namespace Token

/-- The tier of an operator is its precedence. A number binds more tightly than any operator. -/
def tier : Token α → Nat
  | number .. => 3
  | operator op => op.precedence

theorem tier_lt_tier_of_isNumber {left right : Token α} (hleft : left.isNumber = false)
    (hright : right.isNumber = true) : left.tier < right.tier := by
  cases left with
  | number text value => cases hleft
  | operator op =>
    cases right with
    | number text value => cases op <;> simp [tier, Operator.precedence, Operator.isAdditive]
    | operator other => cases hright

theorem isNumber_eq_tier (token : Token α) : token.isNumber = (token.tier == 3) := by
  cases token with
  | number text value => rfl
  | operator op => cases op <;> rfl

/-- The operators of one kind are those of one tier. -/
theorem filter_operators (kind : Operator → Bool) (tier : Nat)
    (hkind : ∀ op : Operator, kind op = (op.precedence == tier)) (tokens : List (Token α)) :
    (operators tokens).filter kind = operators (tokens.filter (·.tier == tier)) := by
  rw [operators, operators, List.filter_filterMap, List.filterMap_filter]
  refine List.filterMap_congr fun token _ => ?_
  cases token with
  | number text value => simp [operator?]
  | operator op => simp [operator?, Token.tier, hkind, Option.filter]

end Token

open Token

/-! ### Tokens with their places -/

theorem pairwise_zipIdx (tokens : List (Token α)) :
    tokens.zipIdx.Pairwise fun left right => left.2 < right.2 := by
  have hplaces : (tokens.zipIdx.map Prod.snd).Pairwise (· < ·) := by
    rw [List.zipIdx_map_snd]
    exact List.pairwise_lt_range'
  exact List.pairwise_map.mp hplaces

/-- The tokens with their places, in another order: a token stands ahead of an earlier one only if it
binds more tightly. -/
structure IsMoved (tokens : List (Token α)) (moved : List (Token α × Nat)) : Prop where
  perm : moved.Perm tokens.zipIdx
  ahead : moved.Pairwise fun left right => left.2 < right.2 ∨ right.1.tier < left.1.tier

theorem IsMoved.lt_length {tokens : List (Token α)} {moved : List (Token α × Nat)}
    (hmoved : IsMoved tokens moved) : ∀ item ∈ moved, item.2 < tokens.length := by
  intro item hitem
  have hplace := List.snd_lt_of_mem_zipIdx (hmoved.perm.mem_iff.mp hitem)
  simpa using hplace

/-- One more token may be put ahead of tokens that bind less tightly. -/
theorem IsMoved.insert {tokens : List (Token α)} {front back : List (Token α × Nat)}
    (hmoved : IsMoved tokens (front ++ back)) {token : Token α}
    (hback : ∀ item ∈ back, item.1.tier < token.tier) :
    IsMoved (tokens ++ [token]) (front ++ (token, tokens.length) :: back) := by
  constructor
  · have hzip : (tokens ++ [token]).zipIdx = tokens.zipIdx ++ [(token, tokens.length)] := by
      simp [List.zipIdx_append]
    rw [hzip]
    exact List.perm_middle.trans
      ((List.perm_cons _).mpr hmoved.perm |>.trans (List.perm_append_singleton _ _).symm)
  · obtain ⟨hfront, hrest, hcross⟩ := List.pairwise_append.mp hmoved.ahead
    refine List.pairwise_append.mpr ⟨hfront, List.pairwise_cons.mpr ⟨?_, hrest⟩, ?_⟩
    · intro item hitem
      exact .inr (hback item hitem)
    · intro item hitem other hother
      rcases List.mem_cons.mp hother with rfl | hother
      · exact .inl (hmoved.lt_length item (List.mem_append_left _ hitem))
      · exact hcross item hitem other hother

/-! ### Tokens in a yard -/

namespace Yard

/-- What has passed, and then what waits with the newest first, is the tokens moved. -/
def Moves (yard : Yard α) (tokens : List (Token α)) : Prop :=
  ∃ front back : List (Token α × Nat), IsMoved tokens (front ++ back) ∧
    front.map Prod.fst = yard.passed.reverse ∧ back.map Prod.fst = yard.waiting.map Token.operator

/-- A number passes ahead of all that waits. -/
theorem Moves.push_number {yard : Yard α} {tokens : List (Token α)} (hmoves : yard.Moves tokens)
    (text : Text) (value : α) :
    (yard.push (.number text value)).Moves (tokens ++ [.number text value]) := by
  obtain ⟨front, back, hmoved, hfront, hback⟩ := hmoves
  refine ⟨front ++ [(.number text value, tokens.length)], back, ?_, ?_, hback⟩
  · rw [List.append_assoc]
    refine hmoved.insert fun item hitem => ?_
    have hwaits : item.1 ∈ yard.waiting.map Token.operator := hback ▸ List.mem_map_of_mem hitem
    obtain ⟨op, _, hop⟩ := List.mem_map.mp hwaits
    rw [← hop]
    exact tier_lt_tier_of_isNumber rfl rfl
  · rw [List.map_append, hfront, push, List.reverse_cons, List.map_singleton]

/-- An operator waits behind what it releases and ahead of what is held. -/
theorem Moves.push_operator {yard : Yard α} {tokens : List (Token α)} (hmoves : yard.Moves tokens)
    (hfalling : yard.IsFalling) (op : Operator) :
    (yard.push (.operator op)).Moves (tokens ++ [.operator op]) := by
  obtain ⟨front, back, hmoved, hfront, hback⟩ := hmoves
  rw [← yard.released_append_held op, List.map_append] at hback
  obtain ⟨leaving, staying, rfl, hleaving, hstaying⟩ := List.map_eq_append_iff.mp hback
  refine ⟨front ++ leaving, (.operator op, tokens.length) :: staying, ?_, ?_, ?_⟩
  · rw [← List.append_assoc] at hmoved
    refine hmoved.insert fun item hitem => ?_
    have hheld : item.1 ∈ (yard.held op).map Token.operator := hstaying ▸ List.mem_map_of_mem hitem
    obtain ⟨other, hother, hitem⟩ := List.mem_map.mp hheld
    rw [← hitem]
    exact hfalling.precedence_lt_of_mem_held other hother
  · rw [List.map_append, hfront, hleaving, push, List.reverse_append, List.reverse_reverse]
  · rw [List.map_cons, hstaying, push, List.map_cons]

theorem moves_ofTokens (tokens : List (Token α)) : (ofTokens tokens).Moves tokens := by
  induction tokens using List.reverseRecOn with
  | nil => exact ⟨[], [], ⟨List.Perm.nil, List.Pairwise.nil⟩, rfl, rfl⟩
  | append_singleton tokens token ih =>
    rw [ofTokens_concat]
    cases token with
    | number text value => exact ih.push_number text value
    | operator op => exact ih.push_operator (isFalling_ofTokens tokens) op

end Yard

theorem exists_isMoved_reorder (tokens : List (Token α)) :
    ∃ moved, IsMoved tokens moved ∧ moved.map Prod.fst = reorder tokens := by
  obtain ⟨front, back, hmoved, hfront, hback⟩ := Yard.moves_ofTokens tokens
  refine ⟨front ++ back, hmoved, ?_⟩
  rw [List.map_append, hfront, hback, Yard.reorder_eq, Yard.drain]

/-! ### Order in each tier -/

/-- The reordered tokens with the places they come from, those of each tier in order. -/
structure Traces (tokens : List (Token α)) (moved : List (Token α × Nat)) : Prop where
  tokens_eq : moved.map Prod.fst = reorder tokens
  perm : moved.Perm tokens.zipIdx
  in_tiers : moved.Pairwise fun left right => left.1.tier = right.1.tier → left.2 < right.2

theorem Traces.filter_tier {tokens : List (Token α)} {moved : List (Token α × Nat)}
    (htraces : Traces tokens moved) (tier : Nat) :
    moved.filter (·.1.tier == tier) = tokens.zipIdx.filter (·.1.tier == tier) := by
  have hmoved : (moved.filter (·.1.tier == tier)).Pairwise fun left right => left.2 < right.2 := by
    refine (htraces.in_tiers.filter _).imp_of_mem ?_
    intro left right hleft hright hlt
    have htierLeft : left.1.tier = tier := by simpa using (List.mem_filter.mp hleft).2
    have htierRight : right.1.tier = tier := by simpa using (List.mem_filter.mp hright).2
    exact hlt (htierLeft.trans htierRight.symm)
  have htokens := (pairwise_zipIdx tokens).filter (·.1.tier == tier)
  refine List.Perm.eq_of_pairwise ?_ hmoved htokens (htraces.perm.filter _)
  intro left right _ _ hlt hgt
  exact absurd hgt (Nat.lt_asymm hlt)

/-- A list of tokens with places is known from its tokens and, for each tier, the places in order. -/
theorem eq_of_filter_tier_eq {left right : List (Token α × Nat)}
    (htokens : left.map Prod.fst = right.map Prod.fst)
    (htiers : ∀ tier, left.filter (·.1.tier == tier) = right.filter (·.1.tier == tier)) : left = right := by
  induction left generalizing right with
  | nil => simpa using htokens.symm
  | cons item left ih =>
    obtain ⟨other, right, rfl⟩ : ∃ other rest, right = other :: rest := by
      cases right with
      | nil => simp at htokens
      | cons other right => exact ⟨other, right, rfl⟩
    obtain ⟨htoken, hrest⟩ := List.cons.inj htokens
    have hitem : item = other := by
      have hhere := htiers item.1.tier
      rw [List.filter_cons_of_pos (by simp), List.filter_cons_of_pos (by simp [htoken])] at hhere
      exact (List.cons.inj hhere).1
    subst hitem
    refine congrArg (item :: ·) (ih hrest fun tier => ?_)
    have hhere := htiers tier
    by_cases htier : item.1.tier = tier
    · rw [List.filter_cons_of_pos (by simpa using htier),
        List.filter_cons_of_pos (by simpa using htier)] at hhere
      exact (List.cons.inj hhere).2
    · rw [List.filter_cons_of_neg (by simpa using htier),
        List.filter_cons_of_neg (by simpa using htier)] at hhere
      exact hhere

theorem Traces.unique {tokens : List (Token α)} {left right : List (Token α × Nat)}
    (hleft : Traces tokens left) (hright : Traces tokens right) : left = right :=
  eq_of_filter_tier_eq (hleft.tokens_eq.trans hright.tokens_eq.symm)
    fun tier => (hleft.filter_tier tier).trans (hright.filter_tier tier).symm

theorem IsMoved.traces {tokens : List (Token α)} {moved : List (Token α × Nat)}
    (hmoved : IsMoved tokens moved) (htokens : moved.map Prod.fst = reorder tokens) :
    Traces tokens moved := by
  refine ⟨htokens, hmoved.perm, hmoved.ahead.imp ?_⟩
  intro left right hahead htier
  rcases hahead with hlt | hlt
  · exact hlt
  · exact absurd htier.symm (Nat.ne_of_lt hlt)

theorem filter_tier_reorder (tokens : List (Token α)) (tier : Nat) :
    (reorder tokens).filter (·.tier == tier) = tokens.filter (·.tier == tier) := by
  obtain ⟨moved, hmoved, htokens⟩ := exists_isMoved_reorder tokens
  have hfilter (placed : List (Token α × Nat)) :
      (placed.map Prod.fst).filter (·.tier == tier) = (placed.filter (·.1.tier == tier)).map Prod.fst :=
    List.filter_map ..
  rw [← htokens, hfilter, (hmoved.traces htokens).filter_tier, ← hfilter, List.zipIdx_map_fst]

/-- Reordering keeps every token and adds none, with the numbers in order, the additive operators in order
and the multiplicative operators in order. So there is one way to tell which token has gone where. A token
that has got ahead of an earlier one binds more tightly, and no operator has got ahead of a number. -/
theorem reorder_in_tiers (tokens : List (Token α)) :
    (reorder tokens).filter isNumber = tokens.filter isNumber ∧
    (operators (reorder tokens)).filter Operator.isAdditive = (operators tokens).filter Operator.isAdditive ∧
    (operators (reorder tokens)).filter (!·.isAdditive) = (operators tokens).filter (!·.isAdditive) ∧
    (reorder tokens).Perm tokens ∧
    ∃ moved, (∀ other, Traces tokens other ↔ other = moved) ∧
      (moved.Pairwise fun left right => left.2 < right.2 ∨ right.1.tier < left.1.tier) ∧
      moved.Pairwise fun left right =>
        left.1.isNumber = false → right.1.isNumber = true → left.2 < right.2 := by
  obtain ⟨moved, hmoved, htokens⟩ := exists_isMoved_reorder tokens
  have htraces := hmoved.traces htokens
  refine ⟨?_, ?_, ?_, ?_, moved, ?_, hmoved.ahead, ?_⟩
  · have hnumber : (isNumber : Token α → Bool) = (·.tier == 3) := funext isNumber_eq_tier
    rw [hnumber, filter_tier_reorder]
  · have hkind (op : Operator) : op.isAdditive = (op.precedence == 1) := by cases op <;> rfl
    rw [filter_operators _ 1 hkind, filter_operators _ 1 hkind, filter_tier_reorder]
  · have hkind (op : Operator) : (!op.isAdditive) = (op.precedence == 2) := by cases op <;> rfl
    rw [filter_operators _ 2 hkind, filter_operators _ 2 hkind, filter_tier_reorder]
  · rw [← htokens]
    simpa using hmoved.perm.map Prod.fst
  · intro other
    constructor
    · intro hother
      exact hother.unique htraces
    · rintro rfl
      exact htraces
  · refine hmoved.ahead.imp ?_
    intro left right hahead hleft hright
    exact hahead.resolve_right (Nat.lt_asymm (tier_lt_tier_of_isNumber hleft hright))

end FourFunction
