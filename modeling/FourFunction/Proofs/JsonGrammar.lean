import Mathlib.Data.List.DropRight
import FourFunction.Proofs.Numerals
import FourFunction.Proofs.QuotedText

/-!
# The texts that are JSON

The grammar of JSON as a relation between values and their spellings. A value is read back from each of
its spellings: the reader takes it off any text that starts with the spelling and goes on with what can
stand behind a value, and leaves nothing of it but blanks. One unit of fuel for each character is enough for
the depth of the value and for its lists at once.
-/

namespace FourFunction

namespace Json

/-! ### Grammar -/

def AreBlanks (text : Text) : Prop :=
  ∀ c ∈ text, isBlank c = true

instance (text : Text) : Decidable (AreBlanks text) :=
  decidable_of_iff (text.all isBlank = true) List.all_eq_true

/-- What a text can spell. Items and members are at least one. -/
inductive Phrase
  | value (json : Json)
  | member (member : Option Text × Json)
  | items (items : List Json)
  | members (members : List (Option Text × Json))

/-- The spellings of phrases. Blanks may stand on each side of a value and of the name of a member. -/
inductive Spells : Phrase → Text → Prop
  | null : Spells (.value null) ['n', 'u', 'l', 'l']
  | true : Spells (.value (bool true)) ['t', 'r', 'u', 'e']
  | false : Spells (.value (bool false)) ['f', 'a', 'l', 's', 'e']
  | number {literal : Literal} (hspelled : literal.IsSpelled) (hadmits : Admits literal) :
      Spells (.value (number literal)) literal.toText
  | string {parts : List Quoted.Part} {text : Text} (hparts : Quoted.Spells parts text) :
      Spells (.value (string (Quoted.decode parts))) ('"' :: (text ++ ['"']))
  | noItems {blanks : Text} (hblanks : AreBlanks blanks) : Spells (.value (array [])) ('[' :: (blanks ++ [']']))
  | array {items : List Json} {text : Text} (hitems : Spells (.items items) text) :
      Spells (.value (array items)) ('[' :: (text ++ [']']))
  | noMembers {blanks : Text} (hblanks : AreBlanks blanks) :
      Spells (.value (object [])) ('{' :: (blanks ++ ['}']))
  | object {members : List (Option Text × Json)} {text : Text} (hmembers : Spells (.members members) text) :
      Spells (.value (object members)) ('{' :: (text ++ ['}']))
  | padded {json : Json} {before text after : Text} (hbefore : AreBlanks before)
      (hvalue : Spells (.value json) text) (hafter : AreBlanks after) :
      Spells (.value json) (before ++ (text ++ after))
  | member {parts : List Quoted.Part} {json : Json} {before name after text : Text} (hbefore : AreBlanks before)
      (hname : Quoted.Spells parts name) (hafter : AreBlanks after) (hvalue : Spells (.value json) text) :
      Spells (.member (Quoted.decode parts, json)) (before ++ '"' :: (name ++ '"' :: (after ++ ':' :: text)))
  | lastItem {item : Json} {text : Text} (hitem : Spells (.value item) text) : Spells (.items [item]) text
  | item {item : Json} {items : List Json} {text rest : Text} (hitem : Spells (.value item) text)
      (hitems : Spells (.items items) rest) : Spells (.items (item :: items)) (text ++ ',' :: rest)
  | lastMember {member : Option Text × Json} {text : Text} (hmember : Spells (.member member) text) :
      Spells (.members [member]) text
  | members {member : Option Text × Json} {members : List (Option Text × Json)} {text rest : Text}
      (hmember : Spells (.member member) text) (hmembers : Spells (.members members) rest) :
      Spells (.members (member :: members)) (text ++ ',' :: rest)

/-! ### Blanks -/

section

variable {blanks text rest : Text}

theorem areBlanks_nil : AreBlanks [] := by
  intro c hc
  cases hc

theorem Spells.append_blanks {json : Json} {front blanks : Text} (hvalue : Spells (.value json) front)
    (hblanks : AreBlanks blanks) : Spells (.value json) (front ++ blanks) :=
  .padded areBlanks_nil hvalue hblanks

theorem Spells.member_append_blanks {member : Option Text × Json} {front blanks : Text}
    (hmember : Spells (.member member) front) (hblanks : AreBlanks blanks) :
    Spells (.member member) (front ++ blanks) := by
  cases hmember with
  | member hbefore hname hafter hvalue =>
    have hpadded := Spells.member hbefore hname hafter (hvalue.append_blanks hblanks)
    simpa using hpadded

theorem exists_blanks (text : Text) : ∃ blanks, AreBlanks blanks ∧ text = blanks ++ skipBlanks text :=
  ⟨text.takeWhile isBlank, fun _ hc => List.mem_takeWhile_imp hc, List.takeWhile_append_dropWhile.symm⟩

theorem skipBlanks_append (hblanks : AreBlanks blanks) (rest : Text) :
    skipBlanks (blanks ++ rest) = skipBlanks rest :=
  List.dropWhile_append_of_pos hblanks

theorem skipBlanks_cons {c : Char} (hc : isBlank c = false) (rest : Text) :
    skipBlanks (c :: rest) = c :: rest :=
  List.dropWhile_cons_of_neg (by simp [hc])

theorem skipBlanks_skipBlanks (text : Text) : skipBlanks (skipBlanks text) = skipBlanks text :=
  List.dropWhile_idempotent ..

theorem scanValue_skipBlanks (fuel : Nat) (text : Text) :
    scanValue fuel (skipBlanks text) = scanValue fuel text := by
  cases fuel with
  | zero => rfl
  | succ fuel => rw [scanValue, scanValue, skipBlanks_skipBlanks]

theorem scanMember_skipBlanks (scan : Text → Option (Json × Text)) (text : Text) :
    scanMember scan (skipBlanks text) = scanMember scan text := by
  rw [scanMember, scanMember, skipBlanks_skipBlanks]

/-- What can stand behind a value: nothing, a blank, a comma or a closing bracket. -/
def EndsValue (rest : Text) : Prop :=
  ∀ c ∈ rest.head?, isBlank c = true ∨ c = ',' ∨ c = ']' ∨ c = '}'

theorem endsValue_cons {c : Char} (hc : c = ',' ∨ c = ']' ∨ c = '}') (rest : Text) : EndsValue (c :: rest) := by
  intro d hd
  obtain rfl := Option.some.inj hd
  exact .inr hc

theorem EndsValue.append_blanks (hblanks : AreBlanks blanks) (hrest : EndsValue rest) :
    EndsValue (blanks ++ rest) := by
  cases blanks with
  | nil => exact hrest
  | cons c blanks =>
    intro d hd
    obtain rfl := Option.some.inj hd
    exact .inl (hblanks _ (List.mem_cons_self ..))

theorem EndsValue.endsLiteral (hrest : EndsValue rest) : EndsLiteral rest := by
  intro c hc
  have hends := hrest c hc
  simp only [isBlank, Bool.or_eq_true, decide_eq_true_eq, or_assoc] at hends
  rcases hends with rfl | rfl | rfl | rfl | rfl | rfl | rfl <;> decide

end

/-! ### Lists -/

section

variable {α : Type} {scan : Text → Option (α × Text)} {close : Char} {fuel : Nat} {text rest later : Text}
  {element : α} {elements : List α}

/-- The scanner takes the element off whatever starts with the text, but for blanks behind it. -/
def Takes (scan : Text → Option (α × Text)) (element : α) (text : Text) : Prop :=
  ∀ rest, EndsValue rest →
    ∃ left, scan (text ++ rest) = some (element, left) ∧ skipBlanks left = skipBlanks rest

theorem scanList_skipBlanks (hblanks : ∀ text, scan (skipBlanks text) = scan text) (close : Char) (fuel : Nat)
    (text : Text) : scanList scan close fuel (skipBlanks text) = scanList scan close fuel text := by
  cases fuel with
  | zero => rfl
  | succ fuel => rw [scanList, scanList, hblanks]

/-- A list that is scanned is not empty, so the closing bracket does not come first. -/
theorem scanBracketed_of_scanList (hblanks : ∀ text, scan (skipBlanks text) = scan text)
    (hnil : scan [] = none) (hclose : ∀ rest, scan (close :: rest) = none)
    (hlist : scanList scan close (fuel + 1) text = some (elements, rest)) :
    scanBracketed scan close (fuel + 1) text = some (elements, rest) := by
  have hskipped : scanList scan close (fuel + 1) (skipBlanks text) = some (elements, rest) := by
    rw [scanList_skipBlanks hblanks, hlist]
  rw [scanBracketed]
  cases htext : skipBlanks text with
  | nil =>
    rw [htext, scanList, hnil] at hskipped
    cases hskipped
  | cons c later =>
    rw [htext] at hskipped
    have hne : c ≠ close := by
      rintro rfl
      rw [scanList, hclose] at hskipped
      cases hskipped
    simpa [hne] using hskipped

theorem scanBracketed_nil {blanks : Text} (hblanks : AreBlanks blanks) (hclose : isBlank close = false)
    (rest : Text) : scanBracketed scan close fuel (blanks ++ close :: rest) = some ([], rest) := by
  rw [scanBracketed, skipBlanks_append hblanks, skipBlanks_cons hclose]
  exact if_pos rfl

theorem Takes.scanList_last (htakes : Takes scan element text) (hclose : close = ']' ∨ close = '}')
    (fuel : Nat) (rest : Text) :
    scanList scan close (fuel + 1) (text ++ close :: rest) = some ([element], rest) := by
  have hblank : isBlank close = false := by
    rcases hclose with rfl | rfl <;> rfl
  obtain ⟨left, hscan, hleft⟩ := htakes _ (endsValue_cons (.inr hclose) rest)
  have hskipped : skipBlanks left = close :: rest := hleft.trans (skipBlanks_cons hblank rest)
  rw [scanList, hscan]
  simp [hskipped]

theorem Takes.scanList_comma (htakes : Takes scan element text) (hcomma : close ≠ ',')
    (hlater : scanList scan close fuel later = some (elements, rest)) :
    scanList scan close (fuel + 1) (text ++ ',' :: later) = some (element :: elements, rest) := by
  obtain ⟨left, hscan, hleft⟩ := htakes _ (endsValue_cons (.inl rfl) later)
  have hskipped : skipBlanks left = ',' :: later := hleft.trans (skipBlanks_cons rfl later)
  rw [scanList, hscan]
  simp [hskipped, hlater, Ne.symm hcomma]

end

/-! ### Lists of items and of members -/

theorem scanValue_nil (fuel : Nat) : scanValue fuel [] = none := by
  cases fuel <;> rfl

theorem scanValue_bracket (fuel : Nat) (rest : Text) : scanValue fuel (']' :: rest) = none := by
  cases fuel <;> rfl

theorem scanBracketed_items {fuel depth : Nat} {text rest : Text} {items : List Json}
    (hitems : scanList (scanValue depth) ']' (fuel + 1) text = some (items, rest)) :
    scanBracketed (scanValue depth) ']' (fuel + 1) text = some (items, rest) :=
  scanBracketed_of_scanList (scanValue_skipBlanks depth) (scanValue_nil depth) (scanValue_bracket depth) hitems

theorem scanBracketed_members {scan : Text → Option (Json × Text)} {fuel : Nat} {text rest : Text}
    {members : List (Option Text × Json)}
    (hmembers : scanList (scanMember scan) '}' (fuel + 1) text = some (members, rest)) :
    scanBracketed (scanMember scan) '}' (fuel + 1) text = some (members, rest) :=
  scanBracketed_of_scanList (scanMember_skipBlanks scan) rfl (fun _ => rfl) hmembers

/-! ### Reading what is spelled -/

section

variable {text : Text}

/-- The scanner for the phrase reads it off whatever starts with the text. -/
def Phrase.IsRead (depth fuel : Nat) (text : Text) : Phrase → Prop
  | .value json => Takes (scanValue (depth + 1)) json text
  | .member pair => Takes (scanMember (scanValue (depth + 1))) pair text
  | .items list => ∀ rest,
    scanList (scanValue (depth + 1)) ']' (fuel + 1) (text ++ ']' :: rest) = some (list, rest)
  | .members list => ∀ rest,
    scanList (scanMember (scanValue (depth + 1))) '}' (fuel + 1) (text ++ '}' :: rest) = some (list, rest)

theorem takes_of_eq {scan : Text → Option (Json × Text)} {json : Json}
    (hscan : ∀ rest, EndsValue rest → scan (text ++ rest) = some (json, rest)) : Takes scan json text :=
  fun rest hrest => ⟨rest, hscan rest hrest, rfl⟩

/-- A number starts with a minus sign or a digit, unlike the other values. -/
theorem scanValue_eq_scanNumber {c : Char} (hc : c = '-' ∨ c.isDigit = true) (fuel : Nat) (text : Text) :
    scanValue (fuel + 1) (c :: text) = scanNumber (c :: text) := by
  have hblank : isBlank c = false := by
    rw [Bool.eq_false_iff]
    intro hblank
    simp only [isBlank, Bool.or_eq_true, decide_eq_true_eq, or_assoc] at hblank
    rcases hblank with rfl | rfl | rfl | rfl <;> simp at hc
  rw [scanValue, skipBlanks_cons hblank]
  split
  all_goals first
    | rfl
    | rename_i heq
      obtain ⟨rfl, _⟩ := List.cons.inj heq
      simp at hc

theorem exists_toText_eq_cons {literal : Literal} (hspelled : literal.IsSpelled) (hadmits : Admits literal) :
    ∃ c text, literal.toText = c :: text ∧ (c = '-' ∨ c.isDigit = true) := by
  obtain ⟨sign, whole, fraction, scale⟩ := literal
  obtain ⟨hplus, hwhole, _⟩ := hadmits
  match sign, whole with
  | some .plus, _ => exact absurd rfl hplus
  | some .minus, whole => exact ⟨_, _, rfl, .inl rfl⟩
  | none, [] => exact absurd rfl hwhole
  | none, c :: whole => exact ⟨_, _, rfl, .inr (hspelled.whole_digits _ (List.mem_cons_self ..))⟩

theorem takes_number {literal : Literal} (hspelled : literal.IsSpelled) (hadmits : Admits literal) (fuel : Nat) :
    Takes (scanValue (fuel + 1)) (number literal) literal.toText := by
  obtain ⟨c, text, htext, hc⟩ := exists_toText_eq_cons hspelled hadmits
  apply takes_of_eq
  intro rest hrest
  have hnumber : scanNumber (literal.toText ++ rest) = some (number literal, rest) := by
    rw [scanNumber, Literal.scan_toText_append hspelled hrest.endsLiteral]
    exact if_pos hadmits
  rw [htext, List.cons_append] at hnumber ⊢
  rw [scanValue_eq_scanNumber hc, hnumber]

theorem takes_string {parts : List Quoted.Part} (hparts : Quoted.Spells parts text) (fuel : Nat) :
    Takes (scanValue (fuel + 1)) (string (Quoted.decode parts)) ('"' :: (text ++ ['"'])) := by
  apply takes_of_eq
  intro rest _
  rw [List.cons_append, List.append_assoc]
  show (scanString (text ++ '"' :: rest)).map _ = _
  rw [scanString_append hparts]
  rfl

theorem Takes.padded {json : Json} {before after : Text} {fuel : Nat} (hbefore : AreBlanks before)
    (hvalue : Takes (scanValue fuel) json text) (hafter : AreBlanks after) :
    Takes (scanValue fuel) json (before ++ (text ++ after)) := by
  intro rest hrest
  obtain ⟨left, hscan, hleft⟩ := hvalue (after ++ rest) (hrest.append_blanks hafter)
  refine ⟨left, ?_, hleft.trans (skipBlanks_append hafter rest)⟩
  rw [← scanValue_skipBlanks, List.append_assoc, skipBlanks_append hbefore, scanValue_skipBlanks,
    List.append_assoc, hscan]

theorem takes_member {parts : List Quoted.Part} {json : Json} {before name after : Text}
    {scan : Text → Option (Json × Text)} (hbefore : AreBlanks before) (hname : Quoted.Spells parts name)
    (hafter : AreBlanks after) (hvalue : Takes scan json text) :
    Takes (scanMember scan) (Quoted.decode parts, json)
      (before ++ '"' :: (name ++ '"' :: (after ++ ':' :: text))) := by
  intro rest hrest
  obtain ⟨left, hscan, hleft⟩ := hvalue rest hrest
  refine ⟨left, ?_, hleft⟩
  have htext : before ++ '"' :: (name ++ '"' :: (after ++ ':' :: text)) ++ rest =
      before ++ '"' :: (name ++ '"' :: (after ++ ':' :: (text ++ rest))) := by
    simp
  rw [htext, ← scanMember_skipBlanks, skipBlanks_append hbefore, skipBlanks_cons rfl]
  have hcolon : skipBlanks (after ++ ':' :: (text ++ rest)) = ':' :: (text ++ rest) := by
    rw [skipBlanks_append hafter, skipBlanks_cons rfl]
  simp only [scanMember, skipBlanks_cons (show isBlank '"' = false from rfl), scanString_append hname, hcolon,
    hscan, Option.bind_eq_bind, Option.bind_some, pure]

theorem takes_array {items : List Json} {fuel : Nat} (hitems : ∀ rest,
      scanBracketed (scanValue fuel) ']' fuel (text ++ ']' :: rest) = some (items, rest)) :
    Takes (scanValue (fuel + 1)) (array items) ('[' :: (text ++ [']'])) := by
  apply takes_of_eq
  intro rest _
  rw [List.cons_append, List.append_assoc]
  show (scanBracketed _ _ _ (text ++ ']' :: rest)).map _ = _
  rw [hitems]
  rfl

theorem takes_object {members : List (Option Text × Json)} {fuel : Nat} (hmembers : ∀ rest,
      scanBracketed (scanMember (scanValue fuel)) '}' fuel (text ++ '}' :: rest) = some (members, rest)) :
    Takes (scanValue (fuel + 1)) (object members) ('{' :: (text ++ ['}'])) := by
  apply takes_of_eq
  intro rest _
  rw [List.cons_append, List.append_assoc]
  show (scanBracketed _ _ _ (text ++ '}' :: rest)).map _ = _
  rw [hmembers]
  rfl

end

/-- Every scanner reads what the grammar says, if it has more fuel than there are characters. -/
theorem Spells.isRead {phrase : Phrase} {text : Text} (hspells : Spells phrase text) (depth fuel : Nat)
    (hdepth : text.length ≤ depth) (hfuel : text.length ≤ fuel) : phrase.IsRead depth fuel text := by
  -- Brackets around a list pay for the next level of depth, and a comma for the next element.
  induction hspells generalizing depth fuel with
  | null | true | false => exact takes_of_eq fun _ _ => rfl
  | number hspelled hadmits => exact takes_number hspelled hadmits depth
  | string hparts => exact takes_string hparts depth
  | noItems hblanks => exact takes_array fun rest => scanBracketed_nil hblanks rfl rest
  | noMembers hblanks => exact takes_object fun rest => scanBracketed_nil hblanks rfl rest
  | array _ ih =>
    rw [List.length_cons, List.length_append] at hdepth
    match depth, hdepth with
    | depth + 1, hdepth =>
      exact takes_array fun rest => scanBracketed_items (ih depth depth (by omega) (by omega) rest)
  | object _ ih =>
    rw [List.length_cons, List.length_append] at hdepth
    match depth, hdepth with
    | depth + 1, hdepth =>
      exact takes_object fun rest => scanBracketed_members (ih depth depth (by omega) (by omega) rest)
  | padded hbefore _ hafter ih =>
    simp only [List.length_append] at hdepth hfuel
    exact Takes.padded hbefore (ih depth fuel (by omega) (by omega)) hafter
  | member hbefore hname hafter _ ih =>
    simp only [List.length_append, List.length_cons] at hdepth hfuel
    exact takes_member hbefore hname hafter (ih depth fuel (by omega) (by omega))
  | lastItem _ ih => exact (ih depth fuel hdepth hfuel).scanList_last (.inl rfl) fuel
  | lastMember _ ih => exact (ih depth fuel hdepth hfuel).scanList_last (.inr rfl) fuel
  | item _ _ ihItem ihItems =>
    rw [List.length_append, List.length_cons] at hdepth hfuel
    match fuel, hfuel with
    | fuel + 1, hfuel =>
      intro rest
      rw [List.append_assoc, List.cons_append]
      exact (ihItem depth fuel (by omega) (by omega)).scanList_comma (by decide)
        (ihItems depth fuel (by omega) (by omega) rest)
  | members _ _ ihMember ihMembers =>
    rw [List.length_append, List.length_cons] at hdepth hfuel
    match fuel, hfuel with
    | fuel + 1, hfuel =>
      intro rest
      rw [List.append_assoc, List.cons_append]
      exact (ihMember depth fuel (by omega) (by omega)).scanList_comma (by decide)
        (ihMembers depth fuel (by omega) (by omega) rest)

theorem ofText?_of_spells {json : Json} {text : Text} (hspells : Spells (.value json) text) :
    ofText? text = some json := by
  obtain ⟨left, hscan, hleft⟩ := hspells.isRead text.length text.length (Nat.le_refl _) (Nat.le_refl _) []
    (by intro c hc; cases hc)
  have hdone : skipBlanks left = [] := hleft
  rw [List.append_nil] at hscan
  rw [ofText?, hscan]
  exact if_pos hdone

end Json

end FourFunction
