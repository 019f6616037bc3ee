import FourFunction.Decimal.Layout
import FourFunction.Json.Reader
import FourFunction.Operator

/-!
# The keypad

The actions that keys stand for, in three forms: the symbol typed for a key, the label printed on it,
and the value in JSON. Only the digits up to nine have keys. A digit of an action can be any byte; it is
the entry that refuses the others.
-/

namespace FourFunction

inductive Action
  | digit (value : UInt8)
  | operator (op : Operator)
  | equals
  | clear
  | backspace
  deriving DecidableEq

namespace Action

/-! ### Symbols and labels -/

/-- The action typed as a character; clearing may be typed in lower case. -/
def ofSymbol? (c : Char) : Option Action :=
  if c.isDigit then some (digit (c.toNat - '0'.toNat).toUInt8)
  else if c = '=' then some equals
  else if c = 'C' ∨ c = 'c' then some clear
  else if c = '<' then some backspace
  else (Operator.ofSymbol? c).map operator

/-- The actions typed as a text, blanks apart, or its first character that is no key. -/
def ofKeys (keys : Text) : Except Char (List Action) :=
  (Text.withoutBlanks keys).mapM fun c =>
    match ofSymbol? c with
    | some action => .ok action
    | none => .error c

def label : Action → Text
  | digit value => Decimal.wholeText value.toNat
  | operator op => [op.symbol]
  | equals => ['=']
  | clear => ['C']
  | backspace => ['<']

/-- The keys from the top left, row by row. -/
def layout : List Action :=
  [digit 7, digit 8, digit 9, operator .divide,
    digit 4, digit 5, digit 6, operator .multiply,
    digit 1, digit 2, digit 3, operator .subtract,
    clear, digit 0, backspace, operator .add,
    equals]

/-! ### JSON -/

def digitName : Text := "Digit".toList

def operatorName : Text := "Operator".toList

def equalsName : Text := "Equals".toList

def clearName : Text := "Clear".toList

def backspaceName : Text := "Backspace".toList

/-- An object with one member. -/
def tagged (name value : Text) : Text :=
  ['{'] ++ Quoted.quote name ++ [':'] ++ value ++ ['}']

def toJson : Action → Text
  | digit value => tagged digitName (Decimal.wholeText value.toNat)
  | operator op => tagged operatorName (Quoted.quote op.name)
  | equals => Quoted.quote equalsName
  | clear => Quoted.quote clearName
  | backspace => Quoted.quote backspaceName

/-- An action without data. -/
def ofVariant? (json : Json) : Option Action :=
  match json.variant? with
  | none => none
  | some name =>
    if name = equalsName then some equals
    else if name = clearName then some clear
    else if name = backspaceName then some backspace
    else none

/-- The digit of an action, a byte. -/
def digitOf? (json : Json) : Option Action :=
  match json.wholeNumber? with
  | some n => if n < 256 then some (digit n.toUInt8) else none
  | none => none

/-- An action with data is an object with one member, named for the action. -/
def ofJson? : Json → Option Action
  | .object [(some name, value)] =>
    if name = digitName then digitOf? value
    else if name = operatorName then (value.variant?.bind Operator.ofName?).map operator
    else ofVariant? (.object [(some name, value)])
  | json => ofVariant? json

def ofJsonText? (text : Text) : Option Action :=
  (Json.ofText? text).bind ofJson?

end Action

end FourFunction
