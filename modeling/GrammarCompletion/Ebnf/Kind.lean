import GrammarCompletion.Text.LetterCase
import GrammarCompletion.Text.Rune

/-!
# Kinds of productions

The spelling of a name tells what its production is for. `Statement` is a parser rule, `ID` is a
token, and `letter` is a fragment, a part of tokens.
-/

namespace GrammarCompletion.Ebnf

inductive Kind where
  | fragment
  | token
  | rule
  deriving DecidableEq, Inhabited

def startsUpper (name : Bytes) : Bool :=
  match name.firstRune? with
  | none => false
  | some r => LetterCase.isUpper r.code

/-- Whether the production with a name is lexical, so that it must not refer to others. -/
def isLexical (name : Bytes) : Bool := !startsUpper name

/-- The kind a name spells. A name without an upper-case start is a fragment, one without any
lower-case letter a token. The empty name counts as a rule. -/
def kindOf (name : Bytes) : Kind :=
  if name.isEmpty then .rule
  else if !startsUpper name then .fragment
  else if name.runes.any fun r => LetterCase.isLower r.code then .rule
  else .token

namespace Kind

def name : Kind → Bytes
  | .fragment => "fragment"
  | .token => "token"
  | .rule => "rule"

end Kind

end GrammarCompletion.Ebnf
