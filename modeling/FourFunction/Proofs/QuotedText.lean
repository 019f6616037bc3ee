import Mathlib.Tactic.SplitIfs
import FourFunction.Json.Reader

/-!
# Quoted text, read back

A part of a literal is spelled by a character, by a backslash and a letter or by the digits of a code
unit. Parts in a row are read back from their spellings whatever stands behind the closing quote, and from
nothing else.
Every character is written as the spelling of a part that stands for it. So a text between quotes is read
back whatever characters it has: quotes and backslashes are escaped, and so are the control characters
that JSON forbids between quotes.
-/

namespace FourFunction

namespace Quoted

/-! ### Spellings -/

/-- How a part of a literal may be spelled. -/
inductive Part.Spells : Part → Text → Prop
  | plain {c : Char} (hquote : c ≠ '"') (hbackslash : c ≠ '\\') (hcontrol : isControl c = false) :
      Spells (.char c) [c]
  | letter {letter c : Char} (hletter : unescape? letter = some c) : Spells (.char c) ['\\', letter]
  | code {a b c d : Char} {part : Part} (hcode : unit? a b c d = some part) :
      Spells part ['\\', 'u', a, b, c, d]

/-- Parts, each spelled somehow, in a row. -/
inductive Spells : List Part → Text → Prop
  | nil : Spells [] []
  | cons {part : Part} {parts : List Part} {front text : Text} (hpart : part.Spells front)
      (hparts : Spells parts text) : Spells (part :: parts) (front ++ text)

theorem scanPart_letter {letter c : Char} (hletter : unescape? letter = some c) (rest : Text) :
    scanPart ('\\' :: letter :: rest) = some (.char c, rest) := by
  have hcode : letter ≠ 'u' := by
    rintro rfl
    cases hletter
  rw [scanPart, hletter]
  · rfl
  · intros
    contradiction

theorem scanPart_plain {c : Char} (hbackslash : c ≠ '\\') (hcontrol : isControl c = false) (rest : Text) :
    scanPart (c :: rest) = some (.char c, rest) := by
  have hplain : ¬(isControl c = true ∨ c = '\\') := by simp [hcontrol, hbackslash]
  rw [scanPart, if_neg hplain]
  all_goals
    intros
    contradiction

namespace Part.Spells

variable {part : Part} {text : Text}

theorem scanPart_append (hspells : part.Spells text) (rest : Text) :
    scanPart (text ++ rest) = some (part, rest) := by
  cases hspells with
  | plain _ hbackslash hcontrol => exact scanPart_plain hbackslash hcontrol rest
  | letter hletter => exact scanPart_letter hletter rest
  | code hcode =>
    show (unit? _ _ _ _).map (·, rest) = _
    rw [hcode]
    rfl

theorem head?_append_ne (hspells : part.Spells text) (rest : Text) : (text ++ rest).head? ≠ some '"' := by
  cases hspells with
  | plain hquote => simpa using hquote
  | letter | code => simp

theorem one_le_length (hspells : part.Spells text) : 1 ≤ text.length := by
  cases hspells <;> simp

end Part.Spells

theorem scanParts_cons {text rest rest' : Text} {part : Part} {parts : List Part} {fuel : Nat}
    (hquote : text.head? ≠ some '"') (hpart : scanPart text = some (part, rest))
    (hparts : scanParts fuel rest = some (parts, rest')) :
    scanParts (fuel + 1) text = some (part :: parts, rest') := by
  rw [scanParts, hpart]
  · show ((scanParts fuel rest).bind _) = _
    rw [hparts]
    rfl
  · rintro rest rfl
    exact hquote rfl

namespace Spells

variable {parts : List Part} {text : Text}

theorem length_le (hspells : Spells parts text) : parts.length ≤ text.length := by
  induction hspells with
  | nil => exact Nat.le_refl _
  | cons hpart _ ih =>
    have hone := hpart.one_le_length
    rw [List.length_append, List.length_cons]
    omega

/-- Each part takes one unit of fuel, and the closing quote one more. -/
theorem scanParts_append (hspells : Spells parts text) {fuel : Nat} (hfuel : parts.length < fuel) (rest : Text) :
    scanParts fuel (text ++ '"' :: rest) = some (parts, rest) := by
  induction hspells generalizing fuel with
  | nil =>
    match fuel, hfuel with
    | fuel + 1, _ => rfl
  | cons hpart _ ih =>
    match fuel, hfuel with
    | fuel + 1, hfuel =>
      rw [List.append_assoc]
      exact scanParts_cons (hpart.head?_append_ne _) (hpart.scanPart_append _)
        (ih (Nat.lt_of_succ_lt_succ hfuel))

theorem scan_append (hspells : Spells parts text) (rest : Text) :
    scan (text ++ '"' :: rest) = some (parts, rest) := by
  apply hspells.scanParts_append
  have hlength := hspells.length_le
  rw [List.length_append, List.length_cons]
  omega

end Spells

/-! ### What is scanned is spelled -/

theorem spells_of_scanPart {text rest : Text} {part : Part} (hquote : text.head? ≠ some '"')
    (hscan : scanPart text = some (part, rest)) : ∃ front, text = front ++ rest ∧ part.Spells front := by
  unfold scanPart at hscan
  split at hscan
  · cases hscan
  · obtain ⟨_, hcode, hsame⟩ := Option.map_eq_some_iff.mp hscan
    cases hsame
    exact ⟨_, rfl, .code hcode⟩
  · obtain ⟨_, hletter, hsame⟩ := Option.map_eq_some_iff.mp hscan
    cases hsame
    exact ⟨_, rfl, .letter hletter⟩
  · rename_i c _ _ _
    obtain ⟨hplain, hsame⟩ := Option.ite_none_left_eq_some.mp hscan
    cases hsame
    rw [not_or, Bool.not_eq_true] at hplain
    exact ⟨[c], rfl, .plain (fun hc => hquote (congrArg some hc)) hplain.2 hplain.1⟩

theorem spells_of_scanParts {fuel : Nat} {text rest : Text} {parts : List Part}
    (hscan : scanParts fuel text = some (parts, rest)) :
    ∃ front, text = front ++ '"' :: rest ∧ Spells parts front := by
  induction fuel generalizing text parts with
  | zero => cases hscan
  | succ fuel ih =>
    unfold scanParts at hscan
    split at hscan
    · cases hscan
      exact ⟨[], rfl, .nil⟩
    · rename_i hquote
      obtain ⟨⟨part, middle⟩, hpart, hrest⟩ := Option.bind_eq_some_iff.mp hscan
      obtain ⟨⟨parts, rest⟩, hparts, hsame⟩ := Option.bind_eq_some_iff.mp hrest
      cases hsame
      have hhead : text.head? ≠ some '"' := by
        intro hhead
        obtain ⟨rest, rfl⟩ := List.head?_eq_some_iff.mp hhead
        exact hquote rest rfl
      obtain ⟨front, rfl, hfront⟩ := spells_of_scanPart hhead hpart
      obtain ⟨behind, rfl, hbehind⟩ := ih hparts
      exact ⟨front ++ behind, (List.append_assoc ..).symm, .cons hfront hbehind⟩

/-! ### Characters as they are written -/

/-- What a character is read as: itself, or the code unit that its escape gives. -/
inductive Part.StandsFor (c : Char) : Part → Prop
  | char : StandsFor c (.char c)
  | unit (hc : isControl c = true) : StandsFor c (.unit c.toNat)

theorem decode_cons {part : Part} {c : Char} (hpart : part.StandsFor c) (parts : List Part) :
    decode (part :: parts) = (decode parts).map (c :: ·) := by
  cases hpart with
  | char => rfl
  | unit hc =>
    have hlow : c.toNat < 0x20 := by simpa [isControl] using hc
    have hhighSurrogate : isHighSurrogate c.toNat = false := by
      rw [isHighSurrogate, Bool.and_eq_false_iff, decide_eq_false_iff_not]
      omega
    have hlowSurrogate : isLowSurrogate c.toNat = false := by
      rw [isLowSurrogate, Bool.and_eq_false_iff, decide_eq_false_iff_not]
      omega
    rw [decode.eq_def]
    simp [hhighSurrogate, hlowSurrogate]

theorem unit?_lowerHexDigits : ∀ code < 0x20,
    unit? '0' '0' (lowerHexDigit (code / 16)) (lowerHexDigit (code % 16)) = some (.unit code) := by
  decide

theorem exists_spells_escape (c : Char) : ∃ part : Part, part.StandsFor c ∧ part.Spells (escape c) := by
  rw [escape]
  split_ifs with hquote hbackslash _ _ _ _ _ hcontrol
  iterate 7 exact ⟨.char c, .char, .letter (by subst c; rfl)⟩
  · have hlow : c.toNat < 0x20 := by simpa [isControl] using hcontrol
    exact ⟨.unit c.toNat, .unit hcontrol, .code (unit?_lowerHexDigits c.toNat hlow)⟩
  · exact ⟨.char c, .char, .plain hquote hbackslash (by simpa using hcontrol)⟩

theorem exists_spells_flatMap_escape (text : Text) :
    ∃ parts, decode parts = some text ∧ Spells parts (text.flatMap escape) := by
  induction text with
  | nil => exact ⟨[], rfl, .nil⟩
  | cons c text ih =>
    obtain ⟨part, hpart, hspells⟩ := exists_spells_escape c
    obtain ⟨parts, hdecode, hparts⟩ := ih
    refine ⟨part :: parts, ?_, .cons hspells hparts⟩
    rw [decode_cons hpart, hdecode]
    rfl

end Quoted

open Quoted

theorem Json.scanString_append {parts : List Part} {text : Text} (hspells : Spells parts text) (rest : Text) :
    scanString (text ++ '"' :: rest) = some (decode parts, rest) := by
  rw [scanString, hspells.scan_append]
  rfl

end FourFunction
