import GrammarCompletion.Proofs.Completion.Termination
import GrammarCompletion.Proofs.Completion.Transparency

/-!
# What a request depends on

In an automaton without predicates no evaluator is asked. A request to an engine then depends on the
number of tokens in its window and on the types of those before the caret, and on nothing else: two
requests that agree on these are the same search.
-/

namespace GrammarCompletion

def Automaton.Unguarded (a : Automaton) : Prop :=
  ∀ n target rule index, .predicate target rule index ∉ a.transitionsAt n

theorem Automaton.Unguarded.mem_transitions {a : Automaton} (h : a.Unguarded) {n : Nat} {s : State}
    (found : a.states[n]? = some s) (target : Nat) (rule index : Int) :
    .predicate target rule index ∉ s.transitions := by
  rw [← transitionsAt_of_state found]
  exact h n target rule index

/-! ## Surveys -/

namespace Survey

def Task.Unguarded (task : Task) : Prop :=
  ∀ target rule index path, task ≠ .take (.predicate target rule index) path

variable {c : Scope} {f : Findings}

theorem Scope.perform_evaluator (evaluator : Option Evaluator) {task : Task}
    (unguarded : task.Unguarded) :
    { c with evaluator := evaluator }.perform f task = c.perform f task := by
  cases task with
  | visit n path => rfl
  | resume rule state path => rfl
  | take t path =>
    cases t with
    | predicate target rule index => exact absurd rfl (unguarded target rule index path)
    | epsilon | call | wildcard | atom | set | notSet => rfl

theorem Performed.unguarded (h : c.automaton.Unguarded) {task : Task} {new : List Task}
    {g : Findings} (performed : Performed c f task new g) : ∀ t ∈ new, t.Unguarded := by
  cases performed with
  | expand _ found _ _ =>
    intro t member target rule index path same
    obtain ⟨transition, ht, rfl⟩ := List.mem_map.mp member
    cases same
    exact h.mem_transitions found target rule index ht
  | _ =>
    -- only states and follow states are left to visit
    intro t member target rule index path same
    subst same
    simp at member

theorem Scope.run_evaluator (h : c.automaton.Unguarded) (evaluator : Option Evaluator)
    {todo : List Task} (unguarded : ∀ task ∈ todo, task.Unguarded) :
    { c with evaluator := evaluator }.run todo f = c.run todo f := by
  fun_induction Scope.run c todo f with
  | case1 f => rw [Scope.run]
  | case2 f task rest failure g performed =>
    have same := c.perform_evaluator (f := f) evaluator (unguarded task List.mem_cons_self)
    rw [performed] at same
    rw [Scope.run]
    split
    case h_1 performed' =>
      cases same.symm.trans performed'
      rfl
    case h_2 performed' => cases same.symm.trans performed'
  | case3 f task rest new g performed ih =>
    rw [List.forall_mem_cons] at unguarded
    have same := c.perform_evaluator (f := f) evaluator unguarded.1
    rw [performed] at same
    have later : ∀ t ∈ new ++ rest, t.Unguarded := by
      rw [List.forall_mem_append]
      exact ⟨(performed_of_perform performed).unguarded h, unguarded.2⟩
    rw [Scope.run]
    split
    case h_1 performed' => cases same.symm.trans performed'
    case h_2 performed' =>
      cases same.symm.trans performed'
      exact ih later

end Survey

theorem FollowSets.ofRule_evaluator {a : Automaton} (h : a.Unguarded)
    (evaluator evaluator' : Option Evaluator) (ignored : List Symbol) (asked : List PredicateCall)
    (r : Rule) : ofRule a ignored evaluator asked r = ofRule a ignored evaluator' asked r := by
  have same : (⟨a, ignored, evaluator, r.stop⟩ : Survey.Scope).run [.visit r.start []]
      { asked := asked } = _ := Survey.Scope.run_evaluator
        (c := ⟨a, ignored, evaluator', r.stop⟩) h evaluator (by simp [Survey.Task.Unguarded])
  simp only [ofRule, same]

/-! ## Requests side by side -/

namespace Request

/-- Requests to one engine without predicates, with windows of one size and the same types before
the caret. -/
structure SameBefore (q q' : Request) : Prop where
  engine : q.engine = q'.engine
  unguarded : q.engine.automaton.Unguarded
  size : q.window.size = q'.window.size
  symbols : ∀ i, q.atCaret i = false → q.symbolAt i = q'.symbolAt i

namespace SameBefore

variable {q q' : Request} {call call' : Nat → Nat → Search (List Nat)} {frames : List Frame}
  {index : Nat}

theorem atCaret (h : SameBefore q q') (i : Nat) : q.atCaret i = q'.atCaret i := by
  simp only [Request.atCaret, h.size]

theorem isStale (h : SameBefore q q') (expanded : Std.TreeSet Visit Visit.compare) :
    q.isStale expanded = q'.isStale expanded := by
  funext v
  simp only [Request.isStale, h.engine, h.size]

theorem followSets (h : SameBefore q q') (r : Rule) :
    Session.followSets q r = Session.followSets q' r := by
  unfold Session.followSets
  simp only [Session.keyOf, h.engine,
    FollowSets.ofRule_evaluator (h.engine ▸ h.unguarded) q.evaluator q'.evaluator]

theorem takeSymbol (h : SameBefore q q') (t : Transition) (target : Nat) (pending : List Visit) :
    q.takeSymbol frames index t target pending = q'.takeSymbol frames index t target pending := by
  unfold Request.takeSymbol
  rw [h.engine, h.atCaret]
  cases caret : q'.atCaret index with
  | true => simp only [if_true]
  | false => rw [h.symbols index ((h.atCaret index).trans caret)]

theorem take (h : SameBefore q q') (hcall : call = call') {t : Transition}
    (unguarded : ∀ target rule number, t ≠ .predicate target rule number) (pending : List Visit) :
    q.take call frames index t pending = q'.take call' frames index t pending := by
  subst hcall
  unfold Request.take
  cases t with
  | predicate target rule number => exact absurd rfl (unguarded target rule number)
  | call rule follow => rfl
  | wildcard target => simp only [h.engine, h.atCaret]
  | epsilon target => simp only [h.engine, h.atCaret]
  | atom target | set target | notSet target => exact h.takeSymbol _ target pending

theorem takeAll (h : SameBefore q q') (hcall : call = call') {transitions : List Transition}
    (unguarded : ∀ target rule number, .predicate target rule number ∉ transitions)
    (pending : List Visit) :
    q.takeAll call frames index transitions pending =
      q'.takeAll call' frames index transitions pending := by
  induction transitions generalizing pending with
  | nil => rfl
  | cons t transitions ih =>
    simp only [List.mem_cons, not_or] at unguarded
    unfold Request.takeAll
    rw [h.take hcall fun target rule number => Ne.symm (unguarded target rule number).1]
    apply bind_congr
    intro pending
    exact ih (fun target rule number => (unguarded target rule number).2) pending

theorem walkFrom (h : SameBefore q q') (hcall : call = call')
    (expanded : Std.TreeSet Visit Visit.compare) (ends : List Nat) (pending : List Visit) :
    q.walkFrom call frames expanded ends pending =
      q'.walkFrom call' frames expanded ends pending := by
  induction expanded, ends, pending using walkFrom.induct q with
  | case1 expanded ends pending next =>
    rw [walkFrom_nil next, walkFrom_nil (by rw [← h.isStale, next])]
  | case2 expanded ends pending v rest next missing stopped onward =>
    have fresh := isStale_head next
    simp only [Request.isStale, Bool.or_eq_false_iff, Bool.not_eq_false', Bool.and_eq_true,
      decide_eq_true_eq] at fresh
    obtain ⟨state, found⟩ : ∃ state, q.engine.automaton.states[v.state]? = some state :=
      ⟨_, Array.getElem?_eq_getElem fresh.2.1⟩
    have next' : pending.dropWhile (q'.isStale expanded) = v :: rest := by rw [← h.isStale, next]
    have found' : q'.engine.automaton.states[v.state]? = some state := by rw [← h.engine, found]
    rw [walkFrom_cons next found, walkFrom_cons next' found']
    apply bind_congr
    intro _
    split
    · exact stopped
    · rw [h.takeAll hcall (h.unguarded.mem_transitions found)]
      exact bind_congr onward

theorem enterRule (h : SameBefore q q') (frames : List Frame) (rule index : Nat) :
    q.enterRule frames rule index = q'.enterRule frames rule index := by
  induction frames, rule, index using enterRule.induct q with
  | case1 frames rule index entry inner =>
    rw [enterRule_eq, enterRule_eq]
    apply bind_congr
    intro s
    cases s.memo.lookup (⟨rule, index⟩ : RuleEntry) with
    | some ends => rfl
    | none =>
      dsimp only
      cases inactive : frames.find? (fun frame => frame.entry = ⟨rule, index⟩) with
      | some frame => rfl
      | none =>
        dsimp only
        rw [← h.engine]
        cases known : q.engine.automaton.rules[rule]? with
        | none => rfl
        | some r =>
          dsimp only
          rw [h.followSets]
          apply bind_congr
          intro sets
          rw [← h.atCaret]
          cases caret : q.atCaret index with
          | true => rw [if_pos rfl, if_pos rfl]
          | false =>
            have rounds : q.round frames ⟨rule, index⟩ r = q'.round frames ⟨rule, index⟩ r := by
              funext seed
              refine h.walkFrom ?_ _ _ _
              funext callee place
              exact inner inactive r known (by simp [caret]) seed callee place
            rw [h.symbols index caret, h.size, rounds]

end SameBefore

end Request

end GrammarCompletion
