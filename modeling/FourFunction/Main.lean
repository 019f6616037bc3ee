import FourFunction.Transcript

/-!
# Command line

`[config.json] [keys]`: prints the transcript of a session. A first argument that ends in `.json` is the
path of a configuration, any other is the keys. Nothing is printed, and the exit code is 1, if the
configuration cannot be read or a key is unknown.
-/

namespace FourFunction

def printTranscript (config keys : Option String) : IO UInt32 := do
  match Transcript.ofTexts (config.map String.toList) (keys.map String.toList) with
  | .ok transcript =>
    (← IO.getStdout).putStr (String.ofList transcript)
    return 0
  | .error refusal =>
    (← IO.getStderr).putStrLn (String.ofList refusal.message)
    return 1

def runArguments : List String → IO UInt32
  | [] => printTranscript none none
  | first :: rest => do
    if first.endsWith ".json" then printTranscript (some (← IO.FS.readFile first)) rest.head?
    else printTranscript none (some first)

end FourFunction

def main (arguments : List String) : IO UInt32 :=
  FourFunction.runArguments arguments
