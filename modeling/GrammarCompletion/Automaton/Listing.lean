import GrammarCompletion.Automaton.Basic
import GrammarCompletion.Vocabulary

/-!
# Listing an automaton

Each rule is listed with its states in order, and each state with its transitions.
-/

namespace GrammarCompletion.Automaton

/-- The label of a listed transition: all names of up to two symbols, else the first and the
last. -/
def describeSymbols (v : Vocabulary) : List Symbol → Bytes
  | [] => []
  | [x] => v.displayName x
  | [x, y] => v.displayName x ++ ", " ++ v.displayName y
  | x :: y :: z :: rest => v.displayName x ++ " .. " ++ v.displayName ((y :: z :: rest).getLast (by simp))

def calleeName (a : Automaton) (rule : Nat) : Bytes :=
  match a.rules[rule]? with
  | some r => r.name
  | none => Bytes.ofNat rule

def describe (a : Automaton) (v : Vocabulary) : Transition → Except Overlong Bytes
  | .epsilon _ => .ok "ε"
  | .call rule follow => .ok ("call " ++ a.calleeName rule ++ " follow=" ++ Bytes.ofNat follow)
  | .predicate _ rule index => .ok ("pred " ++ Bytes.ofInt rule ++ ":" ++ Bytes.ofInt index)
  | .wildcard _ => .ok "."
  | .atom _ symbol => .ok (v.displayName symbol)
  | .set _ label => (label.getD IntervalSet.empty).values.map (describeSymbols v)
  | .notSet _ label =>
    (label.getD IntervalSet.empty).values.map fun symbols => "~(" ++ describeSymbols v symbols ++ ")"

def entered (a : Automaton) : Transition → Nat
  | .epsilon target | .atom target _ | .set target _ | .notSet target _ | .wildcard target
  | .predicate target _ _ => target
  | .call rule _ => (a.rules[rule]?).elim 0 (·.start)

def listTransition (a : Automaton) (v : Vocabulary) (t : Transition) : Except Overlong Bytes := do
  return "    -" ++ (← a.describe v t) ++ "-> " ++ Bytes.ofNat (a.entered t) ++ "\n"

def listState (a : Automaton) (v : Vocabulary) (s : State) : Except Overlong Bytes := do
  return "  " ++ s.text ++ "\n" ++ (← s.transitions.mapM (a.listTransition v)).flatten

def listRule (a : Automaton) (v : Vocabulary) (r : Rule) : Except Overlong Bytes := do
  let states ← (a.states.toList.filter (·.rule == r.index)).mapM (a.listState v)
  return "rule " ++ Bytes.ofNat r.index ++ " " ++ r.name ++ " start=" ++ Bytes.ofNat r.start ++
    " stop=" ++ Bytes.ofNat r.stop ++ "\n" ++ states.flatten

/-- The whole listing; there is none if a label cannot be listed. -/
def listing (a : Automaton) (v : Vocabulary) : Except Overlong Bytes :=
  (a.rules.toList.mapM (a.listRule v)).map List.flatten

end GrammarCompletion.Automaton
