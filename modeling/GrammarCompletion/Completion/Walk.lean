import Std.Data.TreeSet
import GrammarCompletion.Completion.Session

/-!
# Walking a rule

A rule entered at a token of the window is walked state by state. The result is the set of
positions at which the rule can end; what is met at the caret is recorded as a candidate on the
way. A call walks the called rule first and goes on at its follow state from every position at
which that rule can end.

A rule that is entered again at the same token while it is being walked gives back the ends found
so far, its seed. The walk is then repeated with a larger seed until no new end turns up. What was
remembered during a round may rest on a smaller seed and is forgotten before the next one.
-/

namespace GrammarCompletion

structure Visit where
  state : Nat
  index : Nat
  deriving DecidableEq, Inhabited

namespace Visit

def compare : Visit → Visit → Ordering := compareLex (compareOn index) (compareOn state)

instance : Std.TransCmp compare := inferInstanceAs (Std.TransCmp (compareLex _ _))

end Visit

def unionEnds (ends more : List Nat) : List Nat :=
  more.foldl (fun ends x => insertAscending x ends) ends

namespace Request

/-- A visit that is not made: one made before, or one outside the automaton or the window. -/
def isStale (q : Request) (expanded : Std.TreeSet Visit Visit.compare) (v : Visit) : Bool :=
  expanded.contains v ||
    !(decide (v.state < q.engine.automaton.states.size) && decide (v.index < q.window.size))

@[inline] def record (change : Candidates → Except Overlong Candidates) : Search Unit := do
  let s ← get
  match change s.candidates with
  | .ok c => set { s with candidates := c }
  | .error _ => throw .overlong

/-- Match a symbol transition into `target`: before the caret it is taken if the label has the
token's type, at the caret its label is recorded. -/
@[inline] def takeSymbol (q : Request) (frames : List Frame) (index : Nat) (t : Transition) (target : Nat)
    (pending : List Visit) : Search (List Visit) :=
  match q.engine.automaton.symbolLabel t with
  | none => return pending
  | some label =>
    if label.isEmpty then return pending
    else if q.atCaret index then do
      record fun c =>
        c.addBelow q.engine frames [] label
          (if label.single?.isSome then forcedAfter q.engine.automaton q.engine.ignored t else [])
      return pending
    else if label.contains (q.symbolAt index) then return ⟨target, index + 1⟩ :: pending
    else return pending

/-- Take a transition from position `index` below the frames: the visits it leads to come in front
of the pending ones, the last one first. -/
@[inline] def take (q : Request) (call : Nat → Nat → Search (List Nat)) (frames : List Frame) (index : Nat)
    (t : Transition) (pending : List Visit) : Search (List Visit) :=
  match t with
  | .call rule follow => do
    let ends ← call rule index
    return ends.foldl (fun pending stop => ⟨follow, stop⟩ :: pending) pending
  | .predicate target rule number => do
    if ← Session.ask q ⟨rule, number⟩ then return ⟨target, index⟩ :: pending else return pending
  | .wildcard target =>
    if q.atCaret index then do
      record fun c => c.addBelow q.engine frames [] q.engine.automaton.alphabet []
      return pending
    else return ⟨target, index + 1⟩ :: pending
  | .epsilon target => do
    if q.atCaret index then record fun c => .ok (c.addOutermost q.engine frames [])
    return ⟨target, index⟩ :: pending
  | .atom target _ | .set target _ | .notSet target _ =>
    q.takeSymbol frames index t target pending

def takeAll (q : Request) (call : Nat → Nat → Search (List Nat)) (frames : List Frame)
    (index : Nat) : (transitions : List Transition) → (pending : List Visit) → Search (List Visit)
  | [], pending => return pending
  | t :: transitions, pending => do
    let pending ← q.take call frames index t pending
    q.takeAll call frames index transitions pending

theorem isStale_head {q : Request} {expanded : Std.TreeSet Visit Visit.compare}
    {pending rest : List Visit} {v : Visit}
    (found : pending.dropWhile (q.isStale expanded) = v :: rest) : q.isStale expanded v = false := by
  have := List.head?_dropWhile_not (q.isStale expanded) pending
  simp [found] at this
  exact this

/-- Make all pending visits, the first one first, and those they lead to before the others. -/
def walkFrom (q : Request) (call : Nat → Nat → Search (List Nat)) (frames : List Frame)
    (expanded : Std.TreeSet Visit Visit.compare) (ends : List Nat) (pending : List Visit) :
    Search (List Nat) :=
  match _next : pending.dropWhile (q.isStale expanded) with
  | [] => return ends
  | v :: rest => do
    modify fun s => { s with statesProcessed := s.statesProcessed + 1 }
    match q.engine.automaton.states[v.state]? with
    -- not reached, since a visit outside the automaton is stale
    | none => walkFrom q call frames (expanded.insert v) ends rest
    | some state =>
      if state.kind = .ruleStop then
        walkFrom q call frames (expanded.insert v) (insertAscending v.index ends) rest
      else
        let pending ← q.takeAll call frames v.index state.transitions rest
        walkFrom q call frames (expanded.insert v) ends pending
termination_by
  unseen (grid q.engine.automaton.states.size q.window.size Visit.mk) (fun _ => 1) expanded.contains
decreasing_by
  all_goals
    have fresh := isStale_head _next
    simp only [isStale, Bool.or_eq_false_iff, Bool.not_eq_false', Bool.and_eq_true,
      decide_eq_true_eq] at fresh
    exact unseen_lt (mem_grid Visit.mk fresh.2.1 fresh.2.2) Nat.one_pos fresh.1
      Std.TreeSet.contains_insert_self
      (fun y known => by simp [Std.TreeSet.contains_insert, known])

def walk (q : Request) (call : Nat → Nat → Search (List Nat)) (frames : List Frame)
    (start index : Nat) : Search (List Nat) :=
  q.walkFrom call frames ∅ [] [⟨start, index⟩]

/-- Whether another round is needed: there was no seed yet, or the ends outgrow it. Ends are
positions of the window, of which there are `bound`. -/
def outgrows (bound : Nat) (seed : Option (List Nat)) (ends : List Nat) : Bool :=
  match seed with
  | none => decide (ends.length ≤ bound)
  | some old => decide (old.length < ends.length) && decide (ends.length ≤ bound)

def roundsLeft (bound : Nat) : Option (List Nat) → Nat
  | none => bound + 2
  | some old => bound + 1 - old.length

def grow (bound : Nat) (entry : RuleEntry) (round : Option (List Nat) → Search (List Nat))
    (seed : Option (List Nat)) : Search (List Nat) := do
  let memo := (← get).memo
  let found ← round seed
  if (← get).reentered.contains entry then
    let ends := unionEnds found (seed.getD [])
    if _more : outgrows bound seed ends then
      -- what this round has remembered may rest on the smaller seed
      modify fun s => { s with memo := memo }
      grow bound entry round (some ends)
    else return ends
  else return found
termination_by roundsLeft bound seed
decreasing_by
  have more : outgrows bound seed (unionEnds found (seed.getD [])) = true := _more
  generalize unionEnds found (seed.getD []) = grown at more ⊢
  cases seed with
  | none =>
    simp only [roundsLeft]
    omega
  | some old =>
    simp only [outgrows, Bool.and_eq_true, decide_eq_true_eq] at more
    simp only [roundsLeft]
    omega

/-- Enter a rule at a position below the frames, innermost first: the ends of the rule in ascending
order. -/
def enterRule (q : Request) (frames : List Frame) (rule index : Nat) : Search (List Nat) := do
  let entry : RuleEntry := ⟨rule, index⟩
  match (← get).memo.lookup entry with
  | some ends => return ends
  | none =>
    match _inactive : frames.find? (fun frame => frame.entry = entry) with
    | some frame =>
      modify fun s => { s with reentered := s.reentered.insert entry }
      return frame.seed.getD []
    | none =>
      match _known : q.engine.automaton.rules[rule]? with
      | none => return []
      | some r =>
        let sets ← Session.followSets q r
        if _caret : q.atCaret index then
          record (Candidates.addFollowSets q.engine frames rule sets)
          return if sets.canEnd then [index] else []
        else if sets.canEnd || sets.combined.contains (q.symbolAt index) then
          let ends ← grow q.window.size entry
            (fun seed =>
              q.walk (fun callee place => q.enterRule (⟨entry, seed⟩ :: frames) callee place)
                (⟨entry, seed⟩ :: frames) r.start index)
            none
          modify fun s =>
            { s with memo := (entry, ends) :: s.memo, reentered := s.reentered.erase entry }
          return ends
        else return []
termination_by
  unseen (grid q.engine.automaton.rules.size q.window.size RuleEntry.mk) (fun _ => 1)
    (fun e => frames.any (fun frame => frame.entry = e))
decreasing_by
  have inside : rule < q.engine.automaton.rules.size :=
    (Array.getElem?_eq_some_iff.mp _known).choose
  have before : index < q.window.size := by
    simp only [atCaret, decide_eq_true_eq] at _caret
    omega
  refine unseen_lt (mem_grid RuleEntry.mk inside before) Nat.one_pos ?_ ?_ ?_
  · simpa using _inactive
  · simp
  · intro y known
    simp only [List.any_cons, known, Bool.or_true]

end Request

end GrammarCompletion
