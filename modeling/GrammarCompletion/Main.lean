import GrammarCompletion.Command.Run

/-!
# The command line
-/

namespace GrammarCompletion.Main

/-- The text of bytes for the console; stray bytes become replacement characters. -/
def consoleText (text : Bytes) : String :=
  String.ofList (text.runes.map fun r => Char.ofNat r.code)

def readFile (path : Bytes) : IO (Except FileFault Bytes) := do
  if path.contains 0 then return .error .invalidName
  else
    try
      let contents ← IO.FS.readBinFile (consoleText path)
      return .ok contents.toList
    catch _ => return .error .missing

def readInput : IO Bytes := do
  let stdin ← IO.getStdin
  let mut text : Bytes := []
  repeat
    let part ← stdin.read 65536
    if part.isEmpty then break
    text := text ++ part.toList
  return text

def environmentLanguages : IO (List Bytes) := do
  match ← IO.getEnv "CARET_LANGUAGES" with
  | none => return []
  | some "" => return []
  | some paths => return (Bytes.ofString paths).splitOn 0x3A

end GrammarCompletion.Main

open GrammarCompletion in
def main (arguments : List String) : IO UInt32 := do
  let around : Surroundings IO :=
    { files := Main.readFile, input := Main.readInput, languages := ← Main.environmentLanguages }
  let outcome ← Command.run around (arguments.map Bytes.ofString)
  let stdout ← IO.getStdout
  stdout.write outcome.stdout.toByteArray
  for line in outcome.stderr do
    IO.eprintln (Main.consoleText line)
  match outcome.error with
  | some e =>
    IO.eprintln ("caret: " ++ Main.consoleText e.message)
    return 1
  | none => return 0
