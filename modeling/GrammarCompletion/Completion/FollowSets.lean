import GrammarCompletion.Automaton.Basic
import GrammarCompletion.Completion.Predicate
import GrammarCompletion.Unseen

/-!
# Follow sets

The follow sets of a rule say what can come first when the rule is entered. They are found by
surveying the automaton from the rule's start state without consuming input: each symbol
transition met on the way gives a set, together with the path of rules entered to get there. Where
the rule's own stop state is met, nothing more is required.

A survey visits each state at most once. A called rule found able to end without input is noted,
and the caller then goes on at its follow state.
-/

namespace GrammarCompletion

/-- One way into a rule: the symbols that can come first, the rules entered to reach them and, for
a single symbol, the tokens that must follow it. -/
structure FollowSet where
  symbols : IntervalSet
  path : List Nat
  following : List Symbol
  deriving DecidableEq, Inhabited

structure FollowSets where
  sets : List FollowSet
  combined : IntervalSet
  deriving DecidableEq, Inhabited

namespace FollowSets

def ofSets (sets : List FollowSet) : FollowSets :=
  ⟨sets, sets.foldl (fun all set => all.union set.symbols) IntervalSet.empty⟩

/-- Whether the rule can end without input. -/
def canEnd (f : FollowSets) : Bool := f.combined.contains Symbol.nothing

end FollowSets

/-- The tokens that must come from state `n` on within its rule: while each state has exactly one
way out, follow it if it is an epsilon step or an atom that is not ignored. -/
def forcedFrom (a : Automaton) (ignored : List Symbol) (seen : List Nat) (n : Nat) : List Symbol :=
  if _known : seen.contains n then []
  else
    match _found : a.states[n]? with
    | none => []
    | some s =>
      if s.kind = .ruleStop then []
      else
        match s.transitions with
        | [.epsilon target] => forcedFrom a ignored (n :: seen) target
        | [.atom target symbol] =>
          if ignored.contains symbol then []
          else symbol :: forcedFrom a ignored (n :: seen) target
        | _ => []
termination_by unseen (List.range a.states.size) (fun _ => 1) seen.contains
decreasing_by
  all_goals
    have inside : n < a.states.size := (Array.getElem?_eq_some_iff.mp _found).choose
    exact unseen_lt (List.mem_range.mpr inside) Nat.one_pos (by simpa using _known) (by simp)
      (by intro y; simp; exact .inr)

def forcedAfter (a : Automaton) (ignored : List Symbol) : Transition → List Symbol
  | .atom target _ | .set target _ | .notSet target _ => forcedFrom a ignored [] target
  | _ => []

namespace Survey

inductive Task where
  /-- Visit a state below the path. -/
  | visit (state : Nat) (path : List Nat)
  /-- Take a transition of a visited state. -/
  | take (t : Transition) (path : List Nat)
  /-- Visit the follow state of a call if the called rule can end without input. -/
  | resume (rule state : Nat) (path : List Nat)

/-- An upper bound on the steps a task takes before it visits a state. -/
def Task.weight : Task → Nat
  | .visit .. => 1
  | .take .. => 4
  | .resume .. => 2

structure Scope where
  automaton : Automaton
  ignored : List Symbol
  evaluator : Option Evaluator
  stop : Nat

/-- What a survey has found. `seen` holds the visited states, newest first, `nullable` the called
rules known to end without input, and `asked` the questions put to the evaluator, newest first. -/
structure Findings where
  seen : List Nat := []
  nullable : List Nat := []
  sets : List FollowSet := []
  asked : List PredicateCall := []

def Findings.record (f : Findings) (symbols : IntervalSet) (path : List Nat)
    (following : List Symbol) : Findings :=
  { f with sets := f.sets ++ [⟨symbols, path, following⟩] }

def Scope.cost (c : Scope) (n : Nat) : Nat :=
  match c.automaton.states[n]? with
  | none => 1
  | some s => 4 * s.transitions.length + 1

def Scope.recordSymbol (c : Scope) (t : Transition) (path : List Nat) (f : Findings) : Findings :=
  match c.automaton.symbolLabel t with
  | none => f
  | some label =>
    if label.isEmpty then f
    else
      f.record label path
        (if label.single?.isSome then forcedAfter c.automaton c.ignored t else [])

/-- Carry out a task: the tasks it gives rise to and the findings after it. A failing evaluator is
an error. -/
def Scope.perform (c : Scope) (f : Findings) :
    Task → Except PredicateFailure (List Task) × Findings
  | .visit n path =>
    if f.seen.contains n then (.ok [], f)
    else
      match c.automaton.states[n]? with
      | none => (.ok [], f)
      | some s =>
        let visited := { f with seen := n :: f.seen }
        if n = c.stop then
          (.ok [], visited.record (IntervalSet.singleton Symbol.nothing) path [])
        else if s.kind = .ruleStop then
          (.ok [], { visited with nullable := s.rule :: f.nullable })
        else (.ok (s.transitions.map (Task.take · path)), visited)
  | .take t path =>
    match t with
    | .call rule follow =>
      if path.contains rule then (.ok [], f)
      else
        match c.automaton.rules[rule]? with
        | none => (.ok [], f)
        | some r => (.ok [.visit r.start (path ++ [rule]), .resume rule follow path], f)
    | .predicate target rule index =>
      match askPredicate c.evaluator f.asked ⟨rule, index⟩ with
      | (.error failure, asked) => (.error failure, { f with asked := asked })
      | (.ok holds, asked) =>
        (.ok (if holds then [.visit target path] else []), { f with asked := asked })
    | .epsilon target => (.ok [.visit target path], f)
    | .wildcard _ => (.ok [], f.record c.automaton.alphabet path [])
    | t => (.ok [], c.recordSymbol t path f)
  | .resume rule state path =>
    (.ok (if f.nullable.contains rule then [.visit state path] else []), f)

def weights (todo : List Task) : Nat := todo.foldr (fun task total => task.weight + total) 0

@[simp] theorem weights_nil : weights [] = 0 := rfl

@[simp] theorem weights_cons (task : Task) (todo : List Task) :
    weights (task :: todo) = task.weight + weights todo := rfl

@[simp] theorem weights_append (front back : List Task) :
    weights (front ++ back) = weights front + weights back := by
  induction front with
  | nil => simp
  | cons task front ih =>
    rw [List.cons_append, weights_cons, weights_cons, ih]
    omega

theorem weights_take (ts : List Transition) (path : List Nat) :
    weights (ts.map (Task.take · path)) = 4 * ts.length := by
  induction ts with
  | nil => rfl
  | cons t ts ih =>
    simp only [List.map_cons, weights_cons, ih, Task.weight, List.length_cons]
    omega

def Scope.left (c : Scope) (f : Findings) : Nat :=
  unseen (List.range c.automaton.states.size) c.cost f.seen.contains

theorem Scope.left_visit (c : Scope) {n : Nat} {s : State} {f g : Findings}
    (found : c.automaton.states[n]? = some s) (isNew : ¬ f.seen.contains n)
    (visited : g.seen = n :: f.seen) :
    c.left g + (4 * s.transitions.length + 1) ≤ c.left f := by
  have inside : n < c.automaton.states.size := (Array.getElem?_eq_some_iff.mp found).choose
  have cost : c.cost n = 4 * s.transitions.length + 1 := by simp [Scope.cost, found]
  have step : unseen (List.range c.automaton.states.size) c.cost (n :: f.seen).contains + c.cost n ≤
      unseen (List.range c.automaton.states.size) c.cost f.seen.contains :=
    unseen_add_weight_le (List.mem_range.mpr inside) (by simpa using isNew) (by simp)
      (by intro y; simp; exact .inr)
  rw [Scope.left, Scope.left, visited]
  omega

theorem Scope.recordSymbol_seen (c : Scope) (t : Transition) (path : List Nat) (f : Findings) :
    (c.recordSymbol t path f).seen = f.seen := by
  unfold Scope.recordSymbol
  split
  · rfl
  · split <;> rfl

theorem Scope.left_of_seen_eq (c : Scope) {f g : Findings} (same : g.seen = f.seen) :
    c.left g = c.left f := by
  simp [Scope.left, same]

theorem Scope.perform_lighter (c : Scope) {f g : Findings} {task : Task} {new : List Task}
    (performed : c.perform f task = (.ok new, g)) :
    c.left g + weights new < c.left f + task.weight := by
  cases task with
  | visit n path =>
    simp only [Scope.perform] at performed
    split at performed
    · simp only [Prod.mk.injEq, Except.ok.injEq] at performed
      simp [← performed.1, ← performed.2, Task.weight]
    · rename_i isNew
      split at performed
      · simp only [Prod.mk.injEq, Except.ok.injEq] at performed
        simp [← performed.1, ← performed.2, Task.weight]
      · rename_i s found
        split at performed
        · simp only [Prod.mk.injEq, Except.ok.injEq] at performed
          have := c.left_visit (g := g) found isNew (by simp [← performed.2, Findings.record])
          simp only [← performed.1, weights_nil, Task.weight]
          omega
        · split at performed
          · simp only [Prod.mk.injEq, Except.ok.injEq] at performed
            have := c.left_visit (g := g) found isNew (by simp [← performed.2])
            simp only [← performed.1, weights_nil, Task.weight]
            omega
          · simp only [Prod.mk.injEq, Except.ok.injEq] at performed
            have := c.left_visit (g := g) found isNew (by simp [← performed.2])
            simp only [← performed.1, weights_take, Task.weight]
            omega
  | take t path =>
    simp only [Scope.perform] at performed
    split at performed
    · split at performed
      · simp only [Prod.mk.injEq, Except.ok.injEq] at performed
        simp [← performed.1, ← performed.2, Task.weight]
      · split at performed <;> simp only [Prod.mk.injEq, Except.ok.injEq] at performed <;>
          simp [← performed.1, ← performed.2, Task.weight]
    · split at performed
      · simp at performed
      · simp only [Prod.mk.injEq, Except.ok.injEq] at performed
        rw [c.left_of_seen_eq (f := f) (g := g) (by simp [← performed.2]), ← performed.1]
        split <;> simp [Task.weight]
    · simp only [Prod.mk.injEq, Except.ok.injEq] at performed
      simp [← performed.1, ← performed.2, Task.weight]
    · simp only [Prod.mk.injEq, Except.ok.injEq] at performed
      rw [c.left_of_seen_eq (f := f) (g := g) (by simp [← performed.2, Findings.record])]
      simp [← performed.1, Task.weight]
    · simp only [Prod.mk.injEq, Except.ok.injEq] at performed
      rw [c.left_of_seen_eq (f := f) (g := g)
        (by rw [← performed.2]; exact c.recordSymbol_seen _ _ _)]
      simp [← performed.1, Task.weight]
  | resume rule state path =>
    simp only [Scope.perform, Prod.mk.injEq, Except.ok.injEq] at performed
    rw [← performed.1, ← performed.2]
    split <;> simp [Task.weight]

/-- Carry out all tasks, first task first, each with what it gives rise to before the next. -/
def Scope.run (c : Scope) (todo : List Task) (f : Findings) :
    Except PredicateFailure Unit × Findings :=
  match todo with
  | [] => (.ok (), f)
  | task :: rest =>
    match _performed : c.perform f task with
    | (.error failure, f) => (.error failure, f)
    | (.ok new, f) => c.run (new ++ rest) f
termination_by c.left f + weights todo
decreasing_by
  have := c.perform_lighter _performed
  simp only [weights_append, weights_cons]
  omega

end Survey

/-- The outcome of a survey: the follow sets or the evaluator's failure, the number of states
visited and the questions asked, newest first. -/
structure FollowSets.Outcome where
  result : Except PredicateFailure FollowSets
  visited : Nat
  asked : List PredicateCall

def FollowSets.ofRule (a : Automaton) (ignored : List Symbol) (evaluator : Option Evaluator)
    (asked : List PredicateCall) (rule : Rule) : FollowSets.Outcome :=
  let scope : Survey.Scope := ⟨a, ignored, evaluator, rule.stop⟩
  let (result, found) := scope.run [.visit rule.start []] { asked := asked }
  ⟨result.map fun _ => FollowSets.ofSets found.sets, found.seen.length, found.asked⟩

end GrammarCompletion
