import Std.Data.TreeMap
import GrammarCompletion.IntervalSet.Basic

/-!
# Candidates

What can stand at the caret: token types, each with the tokens that must follow it, and preferred
rules, each with the path of rules above it.
-/

namespace GrammarCompletion

/-- The result of a completion request. An empty list of following tokens means that no single
continuation is known; a rule's path starts at the root. -/
structure Candidates where
  tokens : Std.TreeMap Symbol (List Symbol) := ∅
  rules : Std.TreeMap Int (List Int) := ∅
  statesProcessed : Int := 0
  deriving Inhabited

namespace Candidates

/-- Record a token type. Two different continuations leave it without one. -/
def addToken (c : Candidates) (symbol : Symbol) (following : List Symbol) : Candidates :=
  match c.tokens[symbol]? with
  | none => { c with tokens := c.tokens.insert symbol following }
  | some known =>
    if known = following then c else { c with tokens := c.tokens.insert symbol [] }

/-- Record a rule; it keeps the first path it was recorded with. -/
def addRule (c : Candidates) (rule : Int) (path : List Int) : Candidates :=
  if c.rules.contains rule then c else { c with rules := c.rules.insert rule path }

def tokenTypes (c : Candidates) : List Symbol := c.tokens.keys

def ruleIndexes (c : Candidates) : List Int := c.rules.keys

/-- Every token type that is a candidate or must follow one, in ascending order. -/
def symbols (c : Candidates) : List Symbol :=
  let seen : Std.TreeMap Symbol Unit := c.tokens.foldl
    (fun seen symbol following =>
      following.foldl (fun seen f => seen.insert f ()) (seen.insert symbol ())) ∅
  seen.keys

def listText (values : List Int) : Bytes :=
  "[" ++ Bytes.join " " (values.map Bytes.ofInt) ++ "]"

def mapText (entries : List (Int × List Int)) : Bytes :=
  "map[" ++ Bytes.join " " (entries.map fun (k, v) => Bytes.ofInt k ++ ":" ++ listText v) ++ "]"

def text (c : Candidates) : Bytes :=
  "Candidates\x7btokens=" ++
    mapText (c.tokens.toList.map fun (k, v) => (k.toInt, v.map Int64.toInt)) ++
    ", rules=" ++ mapText c.rules.toList ++ "\x7d"

end Candidates

end GrammarCompletion
