import FourFunction.Session

/-!
# Transcripts

A session written out for reading: a heading, and for every action a line with the action's label and
both fields after it. What a transcript is made from, the text of a configuration and the keys, may be
unusable; nothing is written then.
-/

namespace FourFunction

namespace Transcript

/-! ### Writing -/

def heading : Text :=
  "=== Keypad Session ===\n\n".toList

def line (action : Action) (session : Session) : Text :=
  ['['] ++ action.label.leftpad 2 ' ' ++ "]  input: ".toList ++ session.entry.text.rightpad 24 ' ' ++
    " result: ".toList ++ session.resultText ++ ['\n']

/-- The lines of the actions, from a session on. -/
def lines : Session → List Action → Text
  | _, [] => []
  | session, action :: actions =>
    let session := session.press action
    line action session ++ lines session actions

def ofActions (config : Config) (actions : List Action) : Text :=
  heading ++ lines (.start config) actions

/-! ### From what is given -/

/-- Why there is no transcript. -/
inductive Refusal
  | unreadableConfig
  | unknownKey (key : Char)
  deriving DecidableEq

def Refusal.message : Refusal → Text
  | unreadableConfig => "unreadable configuration".toList
  | unknownKey key => "unknown key '".toList ++ [key, '\'']

/-- The keys of a transcript for which none are given. -/
def sampleKeys : Text :=
  "3 + 4 * 2 = / 0 = C 10 - 2 - 3 = 12 + < <".toList

def ofKeys (config : Config) (keys : Text) : Except Refusal Text :=
  match Action.ofKeys keys with
  | .ok actions => .ok (ofActions config actions)
  | .error key => .error (.unknownKey key)

/-- The transcript for the text of a configuration and the keys, where they are given. -/
def ofTexts (config keys : Option Text) : Except Refusal Text :=
  match config.map Config.ofText? with
  | some none => .error .unreadableConfig
  | some (some config) => ofKeys config (keys.getD sampleKeys)
  | none => ofKeys {} (keys.getD sampleKeys)

end Transcript

end FourFunction
