import GrammarCompletion.Ebnf.Lexeme

/-!
# Errors in a grammar source

Errors are found while a source is read and while its productions are checked. Each has a position
and a cause.
-/

namespace GrammarCompletion.Ebnf

inductive Fault where
  /-- Something else was expected; `what` is shown between quotes. -/
  | expected (what : Bytes) (found : Lexeme)
  | declaredAlready (name : Bytes)
  | noProduction (name : Bytes)
  /-- A lexical production refers to one that is not. -/
  | notLexical (name : Bytes)
  /-- An end of a character range is not a single character. -/
  | notSingle (text : Bytes)
  | decreasingRange
  | unreachable (name : Bytes)

namespace Fault

def message : Fault → Bytes
  | .expected what found => "expected \"" ++ what ++ "\", found " ++ found.describe
  | .declaredAlready name => name ++ " declared already"
  | .noProduction name => "missing production " ++ name
  | .notLexical name => "reference to non-lexical production " ++ name
  | .notSingle text => "single char expected, found " ++ text
  | .decreasingRange => "decreasing character range"
  | .unreachable name => name ++ " is unreachable"

end Fault

structure Error where
  position : Position
  fault : Fault

namespace Error

def message (e : Error) : Bytes := e.position.text ++ ": " ++ e.fault.message

def summary : List Error → Bytes
  | [] => "no errors"
  | [e] => e.message
  | e :: rest => e.message ++ " (and " ++ Bytes.ofNat rest.length ++ " more errors)"

end Error

end GrammarCompletion.Ebnf
