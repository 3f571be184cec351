import GrammarCompletion.Text.Bytes

/-!
# Languages that come with the program
-/

namespace GrammarCompletion

structure Builtin where
  name : Bytes
  definition : Bytes
  grammar : Bytes

namespace Builtin

def stateMachine : Builtin where
  name := "statemachine"
  definition := Bytes.join "\n" [
    "name: statemachine",
    "grammar: statemachine.ebnf",
    "start: Definitions",
    "skip:",
    "  - WS",
    "extensions:",
    "  - .sm",
    ""]
  grammar := Bytes.join "\n" [
    "Definitions = \x7b Machine | State | Transition \x7d .",
    "Machine = STATEMACHINE ID \"\x7b\" \x7b State | Transition \x7d \"\x7d\" .",
    "State = STATE ID \"\x7b\" \"\x7d\" .",
    "Transition = TRANSITION \"\x7b\" [ SOURCE ID \";\" TARGET ID \";\" ] \"\x7d\" .",
    "",
    "STATEMACHINE = \"statemachine\" .",
    "STATE = \"state\" .",
    "TRANSITION = \"transition\" .",
    "SOURCE = \"source\" .",
    "TARGET = \"target\" .",
    "ID = letter \x7b letter | digit | \"_\" \x7d .",
    "WS = \" \" | \"\\t\" | \"\\n\" | \"\\r\" .",
    "",
    "letter = \"a\" … \"z\" | \"A\" … \"Z\" | \"_\" .",
    "digit = \"0\" … \"9\" .",
    ""]

def all : List Builtin := [stateMachine]

def names : List Bytes := all.map Builtin.name

end Builtin

end GrammarCompletion
