import GrammarCompletion.IntervalSet.Basic
import GrammarCompletion.Text.Quoted

/-!
# Tokens

A token is a lexed symbol with its place in the source. Tokens off the default channel, such as
white space, are hidden from the grammar.
-/

namespace GrammarCompletion

/-- A lexed symbol. `start` and `stop` are byte offsets, `stop` lies behind the last byte; `line`
and `column` are those of `start`. -/
structure Token where
  index : Int := 0
  symbol : Symbol := 0
  text : Bytes := []
  channel : Int := 0
  start : Int := 0
  stop : Int := 0
  line : Int := 0
  column : Int := 0
  deriving DecidableEq, Inhabited

namespace Token

def defaultChannel : Int := 0
def hiddenChannel : Int := 1

def isVisible (t : Token) : Bool := t.channel == defaultChannel

def isEnd (t : Token) : Bool := t.symbol == Symbol.endOfInput

/-- Index, place, type and text, as in `[@0 1:1 type=3 "ab"]`. -/
def describe (t : Token) : Bytes :=
  "[@" ++ Bytes.ofInt t.index ++ " " ++ Bytes.ofInt t.line ++ ":" ++ Bytes.ofInt t.column ++
    " type=" ++ Bytes.ofInt t.symbol.toInt ++ " " ++ Quoted.quote t.text ++ "]"

end Token

end GrammarCompletion
