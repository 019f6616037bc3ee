import FourFunction.Json.Basic

/-!
# Reading JSON

A strict reader: the text holds one value with blanks around it and nothing else. `scanValue` takes a
value off the front of a text; fuel bounds its depth and the length of its lists, and one unit for each
character is always enough.
-/

namespace FourFunction

namespace Json

def isBlank (c : Char) : Bool :=
  c = ' ' || c = '\t' || c = '\n' || c = '\r'

def skipBlanks (text : Text) : Text :=
  text.dropWhile isBlank

/-! ### Numbers -/

/-- The spelling JSON allows: no plus sign, digits on each side of a point and behind an exponent mark, and
no zero in front of another digit. -/
def Admits (literal : Literal) : Prop :=
  literal.sign ≠ some .plus ∧ literal.whole ≠ [] ∧ (literal.whole.head? = some '0' → literal.whole = ['0']) ∧
    literal.fraction ≠ some [] ∧ ∀ scale ∈ literal.scale, scale.digits ≠ []

instance (literal : Literal) : Decidable (Admits literal) :=
  inferInstanceAs (Decidable (_ ∧ _))

def scanNumber (text : Text) : Option (Json × Text) :=
  let (literal, rest) := Literal.scan text
  if Admits literal then some (number literal, rest) else none

/-! ### Values -/

def scanString (text : Text) : Option (Option Text × Text) :=
  (Quoted.scan text).map fun (parts, rest) => (Quoted.decode parts, rest)

/-- The elements of a list up to its closing bracket, at least one, with commas between. -/
def scanList {α : Type} (scanElement : Text → Option (α × Text)) (close : Char) : Nat → Text → Option (List α × Text)
  | 0, _ => none
  | fuel + 1, text => do
    let (element, rest) ← scanElement text
    match skipBlanks rest with
    | [] => none
    | c :: rest =>
      if c = close then some ([element], rest)
      else if c = ',' then
        let (elements, rest) ← scanList scanElement close fuel rest
        return (element :: elements, rest)
      else none

/-- As `scanList`, for a list that may be empty. -/
def scanBracketed {α : Type} (scanElement : Text → Option (α × Text)) (close : Char) (fuel : Nat) (text : Text) :
    Option (List α × Text) :=
  match skipBlanks text with
  | [] => none
  | c :: rest => if c = close then some ([], rest) else scanList scanElement close fuel (c :: rest)

/-- A name, a colon and a value, with blanks before each. -/
def scanMember (scanValue : Text → Option (Json × Text)) (text : Text) : Option ((Option Text × Json) × Text) :=
  match skipBlanks text with
  | '"' :: rest => do
    let (name, rest) ← scanString rest
    match skipBlanks rest with
    | ':' :: rest => do
      let (value, rest) ← scanValue rest
      return ((name, value), rest)
    | _ => none
  | _ => none

/-- A value with blanks before it. -/
def scanValue : Nat → Text → Option (Json × Text)
  | 0, _ => none
  | fuel + 1, text =>
    match skipBlanks text with
    | 'n' :: 'u' :: 'l' :: 'l' :: rest => some (null, rest)
    | 't' :: 'r' :: 'u' :: 'e' :: rest => some (bool true, rest)
    | 'f' :: 'a' :: 'l' :: 's' :: 'e' :: rest => some (bool false, rest)
    | '"' :: rest => (scanString rest).map fun (text, rest) => (string text, rest)
    | '[' :: rest => (scanBracketed (scanValue fuel) ']' fuel rest).map fun (items, rest) => (array items, rest)
    | '{' :: rest =>
      (scanBracketed (scanMember (scanValue fuel)) '}' fuel rest).map fun (members, rest) => (object members, rest)
    | text => scanNumber text

/-- The value that the whole text holds. -/
def ofText? (text : Text) : Option Json := do
  let (value, rest) ← scanValue (text.length + 1) text
  if skipBlanks rest = [] then return value else none

end Json

end FourFunction
