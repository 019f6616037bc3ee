import FourFunction.Text

/-!
# Quoted text

The string literals of JSON. Reading has two stages: `scan` cuts a literal at its closing quote and
resolves the escapes one by one, and `decode` joins the code units that escapes name to characters. A
literal may name half of a surrogate pair; it is a literal then, but no text. `quote` writes text with the
shortest escapes, and only where JSON demands one.
-/

namespace FourFunction

namespace Quoted

/-- What one character or one escape of a literal stands for. -/
inductive Part
  | char (c : Char)
  /-- A UTF-16 code unit, given by four hexadecimal digits. -/
  | unit (code : Nat)
  deriving DecidableEq

/-! ### Scanning -/

def hexDigit? (c : Char) : Option Nat :=
  if '0' ≤ c ∧ c ≤ '9' then some (c.toNat - '0'.toNat)
  else if 'a' ≤ c ∧ c ≤ 'f' then some (c.toNat - 'a'.toNat + 10)
  else if 'A' ≤ c ∧ c ≤ 'F' then some (c.toNat - 'A'.toNat + 10)
  else none

def unit? (a b c d : Char) : Option Part := do
  let a ← hexDigit? a
  let b ← hexDigit? b
  let c ← hexDigit? c
  let d ← hexDigit? d
  return .unit (((a * 16 + b) * 16 + c) * 16 + d)

/-- The character that a backslash and a letter stand for. -/
def unescape? : Char → Option Char
  | '"' => some '"'
  | '\\' => some '\\'
  | '/' => some '/'
  | 'b' => some '\x08'
  | 'f' => some '\x0c'
  | 'n' => some '\n'
  | 'r' => some '\r'
  | 't' => some '\t'
  | _ => none

/-- Whether JSON forbids the character between quotes unless it is escaped. -/
def isControl (c : Char) : Bool :=
  c.toNat < 0x20

/-- One part off the front of a text. -/
def scanPart : Text → Option (Part × Text)
  | [] => none
  | '\\' :: 'u' :: a :: b :: c :: d :: rest => (unit? a b c d).map (·, rest)
  | '\\' :: c :: rest => (unescape? c).map fun c => (.char c, rest)
  | c :: rest => if isControl c ∨ c = '\\' then none else some (.char c, rest)

/-- The parts up to the closing quote, and what follows the quote. Every part takes at least one
character, so fuel for each character of the text is enough. -/
def scanParts : Nat → Text → Option (List Part × Text)
  | 0, _ => none
  | fuel + 1, text =>
    match text with
    | '"' :: rest => some ([], rest)
    | text => do
      let (part, rest) ← scanPart text
      let (parts, rest) ← scanParts fuel rest
      return (part :: parts, rest)

/-- A literal whose opening quote has been taken. -/
def scan (text : Text) : Option (List Part × Text) :=
  scanParts text.length text

/-! ### Surrogate pairs -/

def isHighSurrogate (code : Nat) : Bool := 0xD800 ≤ code && code < 0xDC00

def isLowSurrogate (code : Nat) : Bool := 0xDC00 ≤ code && code < 0xE000

def pairChar (high low : Nat) : Char :=
  Char.ofNat (0x10000 + (high - 0xD800) * 0x400 + (low - 0xDC00))

/-- The text of a literal, if each half of a surrogate pair stands next to its other half. -/
def decode : List Part → Option Text
  | [] => some []
  | .char c :: parts => (decode parts).map (c :: ·)
  | .unit code :: parts =>
    if isHighSurrogate code then
      match parts with
      | .unit low :: parts => if isLowSurrogate low then (decode parts).map (pairChar code low :: ·) else none
      | _ => none
    else if isLowSurrogate code then none
    else (decode parts).map (Char.ofNat code :: ·)

/-! ### Writing -/

def lowerHexDigit (n : Nat) : Char := Nat.digitChar n

def escape (c : Char) : Text :=
  if c = '"' then ['\\', '"']
  else if c = '\\' then ['\\', '\\']
  else if c = '\x08' then ['\\', 'b']
  else if c = '\x0c' then ['\\', 'f']
  else if c = '\n' then ['\\', 'n']
  else if c = '\r' then ['\\', 'r']
  else if c = '\t' then ['\\', 't']
  else if isControl c then
    ['\\', 'u', '0', '0', lowerHexDigit (c.toNat / 16), lowerHexDigit (c.toNat % 16)]
  else [c]

def quote (text : Text) : Text :=
  '"' :: text.flatMap escape ++ ['"']

end Quoted

end FourFunction
