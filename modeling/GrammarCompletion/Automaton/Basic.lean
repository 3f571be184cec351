import GrammarCompletion.IntervalSet.Basic

/-!
# Automata

An automaton has one sub-graph per grammar rule. A call transition enters the start state of
another rule and, when that rule reaches its stop state, goes on at its follow state. States and
rules are known by their positions.
-/

namespace GrammarCompletion

inductive StateKind where
  | invalid
  | basic
  | ruleStart
  | blockStart
  | plusBlockStart
  | starBlockStart
  | ruleStop
  | blockEnd
  | starLoopBack
  | starLoopEntry
  | plusLoopBack
  | loopEnd
  deriving DecidableEq, Inhabited

namespace StateKind

def all : List StateKind :=
  [.invalid, .basic, .ruleStart, .blockStart, .plusBlockStart, .starBlockStart, .ruleStop,
    .blockEnd, .starLoopBack, .starLoopEntry, .plusLoopBack, .loopEnd]

def name : StateKind → Bytes
  | .invalid => "invalid"
  | .basic => "basic"
  | .ruleStart => "rule start"
  | .blockStart => "block start"
  | .plusBlockStart => "plus block start"
  | .starBlockStart => "star block start"
  | .ruleStop => "rule stop"
  | .blockEnd => "block end"
  | .starLoopBack => "star loop back"
  | .starLoopEntry => "star loop entry"
  | .plusLoopBack => "plus loop back"
  | .loopEnd => "loop end"

def ofCode? (code : Int) : Option StateKind := if code < 0 then none else all[code.toNat]?

/-- The name of the kind with a code; a code of no kind is shown as it is. -/
def nameOfCode (code : Int) : Bytes :=
  match ofCode? code with
  | some kind => kind.name
  | none => "StateKind(" ++ Bytes.ofInt code ++ ")"

end StateKind

/-- An edge between states. A missing label matches nothing. -/
inductive Transition where
  /-- To the target without input. -/
  | epsilon (target : Nat)
  /-- To the target by one token of the given type. -/
  | atom (target : Nat) (symbol : Symbol)
  /-- To the target by a token whose type is in the label. -/
  | set (target : Nat) (label : Option IntervalSet)
  /-- To the target by a token of the alphabet whose type is not in the label. -/
  | notSet (target : Nat) (label : Option IntervalSet)
  /-- To the target by any token. -/
  | wildcard (target : Nat)
  /-- Through a whole rule to the follow state. -/
  | call (rule : Nat) (follow : Nat)
  /-- To the target without input if the predicate with that rule and index holds. -/
  | predicate (target : Nat) (rule index : Int)
  deriving DecidableEq, Inhabited

namespace Transition

def kindNames : List Bytes :=
  ["epsilon", "atom", "set", "not set", "wildcard", "rule", "predicate"]

def kindCode : Transition → Nat
  | .epsilon .. => 0
  | .atom .. => 1
  | .set .. => 2
  | .notSet .. => 3
  | .wildcard .. => 4
  | .call .. => 5
  | .predicate .. => 6

def kindNameOfCode (code : Int) : Bytes :=
  match (if code < 0 then none else kindNames[code.toNat]?) with
  | some name => name
  | none => "TransitionKind(" ++ Bytes.ofInt code ++ ")"

def kindName (t : Transition) : Bytes := kindNameOfCode t.kindCode

/-- Whether taking the transition itself consumes no token. -/
def isEpsilon : Transition → Bool
  | .epsilon .. | .call .. | .predicate .. => true
  | _ => false

end Transition

structure State where
  number : Nat
  kind : StateKind
  rule : Nat
  transitions : List Transition
  deriving Inhabited

namespace State

def text (s : State) : Bytes := "[" ++ Bytes.ofNat s.number ++ " " ++ s.kind.name ++ "]"

end State

structure Rule where
  index : Nat
  name : Bytes
  start : Nat
  stop : Nat
  deriving Inhabited

/-- A compiled grammar. Token types range from `Symbol.firstUser` to `maxSymbol`. -/
structure Automaton where
  states : Array State
  rules : Array Rule
  maxSymbol : Symbol
  deriving Inhabited

namespace Automaton

def alphabet (a : Automaton) : IntervalSet := IntervalSet.range Symbol.firstUser a.maxSymbol

/-- The token types a transition matches; none for a transition that consumes nothing or has no
label. -/
def symbolLabel (a : Automaton) : Transition → Option IntervalSet
  | .atom _ symbol => some (IntervalSet.singleton symbol)
  | .set _ label => label
  | .notSet _ label =>
    some ((label.getD IntervalSet.empty).complement Symbol.firstUser a.maxSymbol)
  | .wildcard _ => some a.alphabet
  | _ => none

def rule? (a : Automaton) (index : Int) : Option Rule :=
  if index < 0 then none else a.rules[index.toNat]?

def ruleByName? (a : Automaton) (name : Bytes) : Option Rule :=
  a.rules.toList.find? (·.name == name)

def ruleNames (a : Automaton) : List Bytes := a.rules.toList.map (·.name)

end Automaton

end GrammarCompletion
