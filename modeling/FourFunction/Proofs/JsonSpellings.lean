import FourFunction.Proofs.JsonGrammar
import FourFunction.Proofs.LiteralGrammar

/-!
# What is read as JSON

The reader takes nothing off a text but spellings: what every scanner takes is spelled as the grammar has it.
With the converse, the texts that are read are just those that spell a value, and no text spells two. So
reading decides what a text spells.
-/

namespace FourFunction

namespace Json

variable {text rest : Text}

/-! ### Lists -/

/-- The scanner takes nothing off a text but a spelling of the element. -/
def TakesOnly {α : Type} (scan : Text → Option (α × Text)) (phrase : α → Phrase) : Prop :=
  ∀ text element rest, scan text = some (element, rest) →
    ∃ front, text = front ++ rest ∧ Spells (phrase element) front

section

variable {α : Type} {scan : Text → Option (α × Text)} {one : α → Phrase} (list : List α → Phrase)
  {close : Char} {fuel : Nat} {elements : List α}

theorem spells_of_scanList (hscan : TakesOnly scan one)
    (hblanks : ∀ {element front blanks}, Spells (one element) front → AreBlanks blanks →
      Spells (one element) (front ++ blanks))
    (hlast : ∀ {element front}, Spells (one element) front → Spells (list [element]) front)
    (hcomma : ∀ {element elements front behind}, Spells (one element) front → Spells (list elements) behind →
      Spells (list (element :: elements)) (front ++ ',' :: behind))
    (hlist : scanList scan close fuel text = some (elements, rest)) :
    ∃ front, text = front ++ close :: rest ∧ Spells (list elements) front := by
  induction fuel generalizing text elements with
  | zero => cases hlist
  | succ fuel ih =>
    rw [scanList] at hlist
    obtain ⟨⟨element, middle⟩, helement, hmiddle⟩ := Option.bind_eq_some_iff.mp hlist
    obtain ⟨front, rfl, hfront⟩ := hscan _ _ _ helement
    obtain ⟨blanks, hblank, hskip⟩ := exists_blanks middle
    have hpadded := hblanks hfront hblank
    dsimp only at hmiddle
    split at hmiddle
    · cases hmiddle
    · rename_i c later hlater
      rw [hlater] at hskip
      rw [hskip, ← List.append_assoc]
      split at hmiddle
      · rename_i hclose
        cases hmiddle
        exact ⟨_, by rw [hclose], hlast hpadded⟩
      · obtain ⟨hc, hrest⟩ := Option.ite_none_right_eq_some.mp hmiddle
        obtain ⟨⟨others, behind⟩, hothers, hsame⟩ := Option.bind_eq_some_iff.mp hrest
        cases hsame
        obtain ⟨behind, rfl, hbehind⟩ := ih hothers
        refine ⟨_, ?_, hcomma hpadded hbehind⟩
        simp [hc]

theorem spells_of_scanBracketed (hblanks : ∀ text, scan (skipBlanks text) = scan text)
    (hlist : ∀ {text elements rest}, scanList scan close fuel text = some (elements, rest) →
      ∃ front, text = front ++ close :: rest ∧ Spells (list elements) front)
    (hbracketed : scanBracketed scan close fuel text = some (elements, rest)) :
    ∃ front, text = front ++ close :: rest ∧
      (elements = [] ∧ AreBlanks front ∨ Spells (list elements) front) := by
  rw [scanBracketed] at hbracketed
  split at hbracketed
  · cases hbracketed
  · rename_i c later hlater
    split at hbracketed
    · rename_i hclose
      cases hbracketed
      obtain ⟨blanks, hblank, hskip⟩ := exists_blanks text
      exact ⟨blanks, by rw [hskip, hlater, hclose], .inl ⟨rfl, hblank⟩⟩
    · rw [← hlater, scanList_skipBlanks hblanks] at hbracketed
      obtain ⟨front, hfront, hsays⟩ := hlist hbracketed
      exact ⟨front, hfront, .inr hsays⟩

end

/-! ### Members and values -/

theorem takesOnly_scanMember {scan : Text → Option (Json × Text)} (hscan : TakesOnly scan .value) :
    TakesOnly (scanMember scan) .member := by
  intro text member rest hmember
  obtain ⟨before, hbefore, htext⟩ := exists_blanks text
  rw [scanMember] at hmember
  split at hmember
  · rename_i later hquote
    obtain ⟨⟨name, behind⟩, hname, hbehind⟩ := Option.bind_eq_some_iff.mp hmember
    obtain ⟨⟨parts, _⟩, hparts, hsame⟩ := Option.map_eq_some_iff.mp hname
    cases hsame
    obtain ⟨spelled, rfl, hspelled⟩ := Quoted.spells_of_scanParts hparts
    obtain ⟨after, hafter, hskip⟩ := exists_blanks behind
    dsimp only at hbehind
    split at hbehind
    · rename_i value hcolon
      obtain ⟨⟨json, _⟩, hjson, hsame⟩ := Option.bind_eq_some_iff.mp hbehind
      cases hsame
      obtain ⟨front, rfl, hfront⟩ := hscan _ _ _ hjson
      refine ⟨_, ?_, .member hbefore hspelled hafter hfront⟩
      rw [htext, hquote, hskip, hcolon]
      simp
    · cases hbehind
  · cases hmember

theorem takesOnly_scanValue (fuel : Nat) : TakesOnly (scanValue fuel) .value := by
  induction fuel with
  | zero =>
    intro text json rest hscan
    cases hscan
  | succ fuel ih =>
    intro text json rest hscan
    obtain ⟨before, hbefore, htext⟩ := exists_blanks text
    suffices hskipped : ∃ front, skipBlanks text = front ++ rest ∧ Spells (.value json) front by
      obtain ⟨front, hfront, hspells⟩ := hskipped
      refine ⟨before ++ (front ++ []), ?_, .padded hbefore hspells areBlanks_nil⟩
      rw [htext, hfront, List.append_nil, List.append_assoc]
    rw [scanValue] at hscan
    split at hscan
    · rename_i hnull
      cases hscan
      exact ⟨_, hnull, .null⟩
    · rename_i htrue
      cases hscan
      exact ⟨_, htrue, .true⟩
    · rename_i hfalse
      cases hscan
      exact ⟨_, hfalse, .false⟩
    · rename_i hquote
      obtain ⟨⟨text, rest⟩, hstring, hsame⟩ := Option.map_eq_some_iff.mp hscan
      cases hsame
      obtain ⟨⟨parts, _⟩, hparts, hsame⟩ := Option.map_eq_some_iff.mp hstring
      cases hsame
      obtain ⟨spelled, rfl, hspelled⟩ := Quoted.spells_of_scanParts hparts
      exact ⟨_, by rw [hquote]; simp, .string hspelled⟩
    · rename_i hopen
      obtain ⟨⟨items, rest⟩, hitems, hsame⟩ := Option.map_eq_some_iff.mp hscan
      cases hsame
      obtain ⟨front, rfl, hfront⟩ := spells_of_scanBracketed .items (scanValue_skipBlanks fuel)
        (spells_of_scanList .items ih .append_blanks .lastItem .item) hitems
      refine ⟨'[' :: (front ++ [']']), by rw [hopen]; simp, ?_⟩
      rcases hfront with ⟨rfl, hblanks⟩ | hspells
      · exact .noItems hblanks
      · exact .array hspells
    · rename_i hopen
      obtain ⟨⟨members, rest⟩, hmembers, hsame⟩ := Option.map_eq_some_iff.mp hscan
      cases hsame
      obtain ⟨front, rfl, hfront⟩ := spells_of_scanBracketed .members (scanMember_skipBlanks _)
        (spells_of_scanList .members (takesOnly_scanMember ih) .member_append_blanks .lastMember .members) hmembers
      refine ⟨'{' :: (front ++ ['}']), by rw [hopen]; simp, ?_⟩
      rcases hfront with ⟨rfl, hblanks⟩ | hspells
      · exact .noMembers hblanks
      · exact .object hspells
    · rw [scanNumber] at hscan
      have hspelled := Literal.isSpelled_scan (skipBlanks text)
      have htext := Literal.toText_scan (skipBlanks text)
      dsimp only at hscan
      obtain ⟨hadmits, hsame⟩ := Option.ite_none_right_eq_some.mp hscan
      cases hsame
      exact ⟨_, htext.symm, .number hspelled hadmits⟩

/-- The texts that are read are the spellings of values, and each is read as the value it spells. -/
theorem ofText?_eq_some_iff {json : Json} : ofText? text = some json ↔ Spells (.value json) text := by
  refine ⟨?_, ofText?_of_spells⟩
  intro hread
  obtain ⟨⟨value, left⟩, hscan, hdone⟩ := Option.bind_eq_some_iff.mp hread
  obtain ⟨hleft, hsame⟩ := Option.ite_none_right_eq_some.mp hdone
  cases hsame
  obtain ⟨front, rfl, hfront⟩ := takesOnly_scanValue _ _ _ _ hscan
  have hblanks : AreBlanks left := List.dropWhile_eq_nil_iff.mp hleft
  exact hfront.append_blanks hblanks

/-! ### Deciding what a text spells -/

mutual

def same : Json → Json → Bool
  | null, null => true
  | bool left, bool right => left == right
  | number left, number right => left == right
  | string left, string right => left == right
  | array left, array right => sameItems left right
  | object left, object right => sameMembers left right
  | _, _ => false

def sameItems : List Json → List Json → Bool
  | [], [] => true
  | left :: lefts, right :: rights => same left right && sameItems lefts rights
  | _, _ => false

def sameMembers : List (Option Text × Json) → List (Option Text × Json) → Bool
  | [], [] => true
  | (leftName, left) :: lefts, (rightName, right) :: rights =>
    leftName == rightName && same left right && sameMembers lefts rights
  | _, _ => false

end

mutual

theorem same_iff (left right : Json) : same left right = true ↔ left = right := by
  cases left <;> cases right <;> simp [same, sameItems_iff, sameMembers_iff]

theorem sameItems_iff (left right : List Json) : sameItems left right = true ↔ left = right := by
  match left, right with
  | [], [] => simp [sameItems]
  | left :: lefts, right :: rights => simp [sameItems, same_iff left right, sameItems_iff lefts rights]
  | [], _ :: _ => simp [sameItems]
  | _ :: _, [] => simp [sameItems]

theorem sameMembers_iff (left right : List (Option Text × Json)) :
    sameMembers left right = true ↔ left = right := by
  match left, right with
  | [], [] => simp [sameMembers]
  | (_, left) :: lefts, (_, right) :: rights =>
    simp [sameMembers, same_iff left right, sameMembers_iff lefts rights, and_assoc]
  | [], _ :: _ => simp [sameMembers]
  | _ :: _, [] => simp [sameMembers]

end

instance : DecidableEq Json :=
  fun left right => decidable_of_iff (same left right = true) (same_iff left right)

instance (json : Json) (text : Text) : Decidable (Spells (.value json) text) :=
  decidable_of_iff (ofText? text = some json) ofText?_eq_some_iff

end Json

end FourFunction
