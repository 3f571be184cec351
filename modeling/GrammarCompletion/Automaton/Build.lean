import GrammarCompletion.Automaton.Basic

/-!
# Building automata

An automaton is built from the empty one by declaring rules, adding states to them and connecting
states. New states and rules take the next free position. Every label widens the alphabet.
-/

namespace GrammarCompletion.Automaton

def empty : Automaton := ⟨#[], #[], 0⟩

def nextState (a : Automaton) : Nat := a.states.size

def addState (a : Automaton) (rule : Nat) (kind : StateKind) : Automaton :=
  { a with states := a.states.push ⟨a.states.size, kind, rule, []⟩ }

def addRule (a : Automaton) (name : Bytes) : Automaton :=
  let index := a.rules.size
  let start := a.nextState
  let b := { a with rules := a.rules.push ⟨index, name, start, start + 1⟩ }
  (b.addState index .ruleStart).addState index .ruleStop

def addTransition (a : Automaton) (source : Nat) (t : Transition) : Automaton :=
  { a with
    states := a.states.modify source fun s => { s with transitions := s.transitions ++ [t] } }

def widen (a : Automaton) (symbol : Symbol) : Automaton :=
  if a.maxSymbol < symbol then { a with maxSymbol := symbol } else a

/-- Widen the alphabet to reach the last range of a label. -/
def widenToLabel (a : Automaton) (label : Option IntervalSet) : Automaton :=
  match (label.getD IntervalSet.empty).ranges.getLast? with
  | some r => a.widen r.hi
  | none => a

def connect (a : Automaton) (source : Nat) (t : Transition) : Automaton :=
  match t with
  | .atom _ symbol => (a.widen symbol).addTransition source t
  | .set _ label | .notSet _ label => (a.widenToLabel label).addTransition source t
  | _ => a.addTransition source t

end GrammarCompletion.Automaton
