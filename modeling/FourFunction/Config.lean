import FourFunction.Display
import FourFunction.Json.Reader

/-!
# Configuration

What a calculator can be told: how to show results, what to show in place of a result after an error, and
whether a result becomes the next entry. A configuration is written as an indented JSON object; it is
read from an object with any of its members, or from an array of the first few values. What is not
given keeps its default.
-/

namespace FourFunction

structure Config where
  format : DisplayFormat := .decimal
  errorIndicator : Text := ['E', 'r', 'r', 'o', 'r']
  reenterResult : Bool := true
  deriving DecidableEq

namespace Config

/-! ### Names -/

def formatName : Text := "result_format".toList

def errorIndicatorName : Text := "error_indicator".toList

def reenterResultName : Text := "reenter_result".toList

def nameOfFormat : DisplayFormat → Text
  | .decimal => "decimal".toList
  | .compact => "compact".toList

def formatOfName? (name : Text) : Option DisplayFormat :=
  [DisplayFormat.decimal, .compact].find? (nameOfFormat · == name)

/-! ### Writing -/

def memberText (name value : Text) : Text :=
  "\n  ".toList ++ Quoted.quote name ++ ": ".toList ++ value

def boolText (value : Bool) : Text :=
  if value then "true".toList else "false".toList

def toJson (config : Config) : Text :=
  ['{'] ++ memberText formatName (Quoted.quote (nameOfFormat config.format)) ++ [','] ++
    memberText errorIndicatorName (Quoted.quote config.errorIndicator) ++ [','] ++
    memberText reenterResultName (boolText config.reenterResult) ++ ['\n', '}']

/-! ### Reading -/

def formatOf? (json : Json) : Option DisplayFormat :=
  json.variant?.bind formatOfName?

def textOf? : Json → Option Text
  | .string text => text
  | _ => none

def boolOf? : Json → Option Bool
  | .bool value => some value
  | _ => none

/-- The value of a member that may be given once; the default if it is not given. -/
def member? {α : Type} (read : Json → Option α) (default : α) (name : Text) (members : List (Option Text × Json)) :
    Option α :=
  match members.filter (·.1 == some name) with
  | [] => some default
  | [(_, value)] => read value
  | _ => none

/-- Members with other names are passed over, but their names must be text. -/
def ofMembers? (members : List (Option Text × Json)) : Option Config := do
  if members.all (·.1.isSome) then
    let format ← member? formatOf? ({} : Config).format formatName members
    let errorIndicator ← member? textOf? ({} : Config).errorIndicator errorIndicatorName members
    let reenterResult ← member? boolOf? ({} : Config).reenterResult reenterResultName members
    return ⟨format, errorIndicator, reenterResult⟩
  else none

/-- The value at the front of an array; the default if the array has ended. -/
def item? {α : Type} (read : Json → Option α) (default : α) (items : List Json) : Option α :=
  match items with
  | [] => some default
  | value :: _ => read value

def ofItems? (items : List Json) : Option Config := do
  if items.length ≤ 3 then
    let format ← item? formatOf? ({} : Config).format items
    let errorIndicator ← item? textOf? ({} : Config).errorIndicator (items.drop 1)
    let reenterResult ← item? boolOf? ({} : Config).reenterResult (items.drop 2)
    return ⟨format, errorIndicator, reenterResult⟩
  else none

def ofJson? : Json → Option Config
  | .object members => ofMembers? members
  | .array items => ofItems? items
  | _ => none

def ofText? (text : Text) : Option Config :=
  (Json.ofText? text).bind ofJson?

end Config

end FourFunction
