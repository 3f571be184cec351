import GrammarCompletion.Automaton.Basic
import GrammarCompletion.Completion.Predicate
import GrammarCompletion.Proofs.IntervalSet.Members

/-!
# Runs with a call stack

A run goes from state to state. A call pushes its follow state and enters the called rule; at a
stop state the follow state on top is popped and the run goes on there. Predicates are passed if
they hold, which is a parameter.

A run that starts with an empty stack is taken apart by levels: `Path` passes finished calls as a
whole and stays on one level, and `Descent` is a path on each level with an open call between.
-/

namespace GrammarCompletion

namespace Transition

/-- Where a transition leads by a token of its label. -/
def symbolTarget? : Transition → Option Nat
  | .atom target _ | .set target _ | .notSet target _ => some target
  | _ => none

/-- Where a run goes on in the same rule behind the transition. -/
def next : Transition → Nat
  | .epsilon target | .atom target _ | .set target _ | .notSet target _ | .wildcard target
  | .predicate target _ _ => target
  | .call _ follow => follow

end Transition

namespace Automaton

def transitionsAt (a : Automaton) (n : Nat) : List Transition :=
  (a.states[n]?.map State.transitions).getD []

theorem transitionsAt_of_state {a : Automaton} {n : Nat} {s : State} (h : a.states[n]? = some s) :
    a.transitionsAt n = s.transitions := by
  simp [transitionsAt, h]

theorem transitionsAt_eq_of_map {a : Automaton} {all : List (List Transition)}
    (h : a.states.toList.map State.transitions = all) (n : Nat) :
    a.transitionsAt n = all[n]?.getD [] := by
  simp [transitionsAt, ← h]

def IsStop (a : Automaton) (n : Nat) : Prop := ∃ s, a.states[n]? = some s ∧ s.kind = .ruleStop

theorem isStop_iff_of_map {a : Automaton} {kinds : List StateKind}
    (h : a.states.toList.map State.kind = kinds) (n : Nat) :
    a.IsStop n ↔ kinds[n]? = some .ruleStop := by
  simp [IsStop, ← h]

/-- A transition of the state has the token type in its label. -/
def Offers (a : Automaton) (n : Nat) (x : Symbol) : Prop :=
  ∃ t ∈ a.transitionsAt n, ∃ label, a.symbolLabel t = some label ∧ x ∈ label

/-- A place in a run; `stack` holds the follow states of the open calls, innermost first. -/
structure Config where
  state : Nat
  stack : List Nat

section
variable (a : Automaton) (holds : PredicateCall → Prop)

/-- A transition that is no call, with the tokens it consumes. -/
inductive Move : Nat → List Symbol → Nat → Prop
  | epsilon {n target : Nat} (h : .epsilon target ∈ a.transitionsAt n) : Move n [] target
  | predicate {n target : Nat} {rule index : Int}
      (h : .predicate target rule index ∈ a.transitionsAt n) (hp : holds ⟨rule, index⟩) :
      Move n [] target
  | wildcard {n target : Nat} (h : .wildcard target ∈ a.transitionsAt n) (x : Symbol) :
      Move n [x] target
  | symbol {n target : Nat} {t : Transition} {label : IntervalSet} {x : Symbol}
      (h : t ∈ a.transitionsAt n) (ht : t.symbolTarget? = some target)
      (hl : a.symbolLabel t = some label) (hx : x ∈ label) : Move n [x] target

inductive Step : Config → List Symbol → Config → Prop
  | move {n m : Nat} {u : List Symbol} {stack : List Nat} (h : Move a holds n u m) :
      Step ⟨n, stack⟩ u ⟨m, stack⟩
  | call {n rule follow : Nat} {r : Rule} {stack : List Nat}
      (h : .call rule follow ∈ a.transitionsAt n) (hr : a.rules[rule]? = some r) :
      Step ⟨n, stack⟩ [] ⟨r.start, follow :: stack⟩
  | pop {n follow : Nat} {stack : List Nat} (h : a.IsStop n) :
      Step ⟨n, follow :: stack⟩ [] ⟨follow, stack⟩

/-- Steps one after the other, with all tokens they consume. -/
inductive Run : Config → List Symbol → Config → Prop
  | refl (c : Config) : Run c [] c
  | step {c d e : Config} {u v : List Symbol} (h : Step a holds c u d) (run : Run d v e) :
      Run c (u ++ v) e

/-- A run on one level of the stack, with the calls on the way passed as a whole. -/
inductive Path : Nat → List Symbol → Nat → Prop
  | refl (n : Nat) : Path n [] n
  | move {n m k : Nat} {u v : List Symbol} (h : Move a holds n u m) (rest : Path m v k) :
      Path n (u ++ v) k
  | call {n rule follow stop k : Nat} {r : Rule} {u v : List Symbol}
      (h : .call rule follow ∈ a.transitionsAt n) (hr : a.rules[rule]? = some r)
      (body : Path r.start u stop) (hstop : a.IsStop stop) (rest : Path follow v k) :
      Path n (u ++ v) k

/-- A path on each level of the stack, with an open call between two levels. -/
inductive Descent : Nat → List Symbol → Nat → List Nat → Prop
  | level {n m : Nat} {u : List Symbol} (path : Path a holds n u m) : Descent n u m []
  | enter {n m rule follow k : Nat} {r : Rule} {u v : List Symbol} {stack : List Nat}
      (upper : Descent n u m stack) (h : .call rule follow ∈ a.transitionsAt m)
      (hr : a.rules[rule]? = some r) (path : Path a holds r.start v k) :
      Descent n (u ++ v) k (follow :: stack)

end

variable {a : Automaton} {holds : PredicateCall → Prop}

theorem Run.single {c d : Config} {u : List Symbol} (h : Step a holds c u d) :
    Run a holds c u d := by
  simpa using Run.step h (.refl d)

theorem Run.trans {c d e : Config} {u v : List Symbol} (h : Run a holds c u d)
    (h' : Run a holds d v e) : Run a holds c (u ++ v) e := by
  induction h with
  | refl c => exact h'
  | step hs _ ih =>
    rw [List.append_assoc]
    exact .step hs (ih h')

theorem Path.trans {n m k : Nat} {u v : List Symbol} (h : Path a holds n u m)
    (h' : Path a holds m v k) : Path a holds n (u ++ v) k := by
  induction h with
  | refl n => exact h'
  | move hm _ ih =>
    rw [List.append_assoc]
    exact .move hm (ih h')
  | call hc hr body hstop _ _ ih =>
    rw [List.append_assoc]
    exact .call hc hr body hstop (ih h')

theorem Path.of_move {n m : Nat} {u : List Symbol} (h : Move a holds n u m) :
    Path a holds n u m := by
  simpa using Path.move h (.refl m)

theorem Path.of_call {n rule follow stop : Nat} {r : Rule} {u : List Symbol}
    (h : .call rule follow ∈ a.transitionsAt n) (hr : a.rules[rule]? = some r)
    (body : Path a holds r.start u stop) (hstop : a.IsStop stop) : Path a holds n u follow := by
  simpa using Path.call h hr body hstop (.refl follow)

theorem Path.run {n m : Nat} {u : List Symbol} (h : Path a holds n u m) (stack : List Nat) :
    Run a holds ⟨n, stack⟩ u ⟨m, stack⟩ := by
  induction h generalizing stack with
  | refl n => exact .refl _
  | move hm _ ih => exact .step (.move hm) (ih stack)
  | @call n rule follow stop k r u v hc hr _ hstop _ body rest =>
    have enter : Run a holds ⟨n, stack⟩ u ⟨stop, follow :: stack⟩ :=
      Run.step (.call hc hr) (body (follow :: stack))
    have leave : Run a holds ⟨stop, follow :: stack⟩ v ⟨k, stack⟩ :=
      Run.step (.pop hstop) (rest stack)
    exact enter.trans leave

theorem Descent.append_path {n m k : Nat} {u v : List Symbol} {stack : List Nat}
    (h : Descent a holds n u m stack) (path : Path a holds m v k) :
    Descent a holds n (u ++ v) k stack := by
  cases h with
  | level first => exact .level (first.trans path)
  | enter upper hc hr first =>
    rw [List.append_assoc]
    exact .enter upper hc hr (first.trans path)

theorem Descent.append_step {n m : Nat} {u v : List Symbol} {stack : List Nat} {d : Config}
    (h : Descent a holds n u m stack) (hs : Step a holds ⟨m, stack⟩ v d) :
    Descent a holds n (u ++ v) d.state d.stack := by
  cases hs with
  | move hm => exact h.append_path (.of_move hm)
  | call hc hr => exact .enter h hc hr (.refl _)
  | pop hstop =>
    -- The call that is left was open, so the descent ends with a path from its entry.
    cases h with
    | enter upper hc hr body =>
      rw [List.append_nil]
      exact upper.append_path (.of_call hc hr body hstop)

theorem Descent.append_run {n : Nat} {u v : List Symbol} {c d : Config}
    (h : Descent a holds n u c.state c.stack) (run : Run a holds c v d) :
    Descent a holds n (u ++ v) d.state d.stack := by
  induction run generalizing u with
  | refl c => simpa using h
  | step hs _ ih =>
    rw [← List.append_assoc]
    exact ih (h.append_step hs)

theorem Descent.run {n m : Nat} {u : List Symbol} {stack : List Nat}
    (h : Descent a holds n u m stack) : Run a holds ⟨n, []⟩ u ⟨m, stack⟩ := by
  induction h with
  | level path => exact path.run []
  | enter _ hc hr path ih => exact ih.trans (.step (.call hc hr) (path.run _))

theorem run_iff_descent {n m : Nat} {u : List Symbol} {stack : List Nat} :
    Run a holds ⟨n, []⟩ u ⟨m, stack⟩ ↔ Descent a holds n u m stack :=
  ⟨fun h => by simpa using (Descent.level (.refl n)).append_run h, Descent.run⟩

theorem run_iff_path {n m : Nat} {u : List Symbol} :
    Run a holds ⟨n, []⟩ u ⟨m, []⟩ ↔ Path a holds n u m := by
  rw [run_iff_descent]
  constructor
  · rintro ⟨path⟩
    exact path
  · exact .level

theorem Run.lift {c d : Config} {u : List Symbol} (h : Run a holds c u d) (below : List Nat) :
    Run a holds ⟨c.state, c.stack ++ below⟩ u ⟨d.state, d.stack ++ below⟩ := by
  induction h with
  | refl c => exact .refl _
  | step hs _ ih =>
    refine .step ?_ ih
    cases hs with
    | move hm => exact .move hm
    | call hc hr => exact .call hc hr
    | pop hstop => exact .pop hstop

/-- A step can be made as well where more of the predicates in its way hold. -/
theorem Step.mono {holds' : PredicateCall → Prop} {c d : Config} {u : List Symbol}
    (h : Step a holds c u d)
    (more : ∀ target rule index, .predicate target rule index ∈ a.transitionsAt c.state →
      holds ⟨rule, index⟩ → holds' ⟨rule, index⟩) : Step a holds' c u d := by
  cases h with
  | move hm =>
    cases hm with
    | epsilon ht => exact .move (.epsilon ht)
    | predicate ht hp => exact .move (.predicate ht (more _ _ _ ht hp))
    | wildcard ht x => exact .move (.wildcard ht x)
    | symbol ht target hl hx => exact .move (.symbol ht target hl hx)
  | call hc hr => exact .call hc hr
  | pop hstop => exact .pop hstop

theorem Run.mono {holds' : PredicateCall → Prop} {c d : Config} {u : List Symbol}
    (more : ∀ call, holds call → holds' call) (h : Run a holds c u d) : Run a holds' c u d := by
  induction h with
  | refl c => exact .refl c
  | step hs _ ih => exact .step (hs.mono fun _ _ _ _ => more _) ih

/-! ## Stacks -/

theorem Move.next {n m : Nat} {u : List Symbol}
    (h : Move a holds n u m) : ∃ t ∈ a.transitionsAt n, t.next = m := by
  cases h with
  | epsilon h | predicate h | wildcard h => exact ⟨_, h, rfl⟩
  | @symbol _ t _ _ h ht =>
    refine ⟨t, h, ?_⟩
    cases t <;> cases ht <;> rfl

theorem Run.mem_stack {c d : Config} {u : List Symbol} (h : Run a holds c u d) {follow : Nat}
    (hf : follow ∈ d.stack) :
    follow ∈ c.stack ∨ ∃ n rule, .call rule follow ∈ a.transitionsAt n := by
  induction h with
  | refl c => exact .inl hf
  | step hs _ ih =>
    rcases ih hf with hf | called
    · cases hs with
      | move => exact .inl hf
      | call hc =>
        rcases List.mem_cons.mp hf with rfl | hf
        · exact .inr ⟨_, _, hc⟩
        · exact .inl hf
      | pop => exact .inl (List.mem_cons_of_mem _ hf)
    · exact .inr called

/-- A run does not leave states that are closed, have no calls, and hold the stack. -/
theorem Run.mem_of_closed {inside : List Nat}
    (closed : ∀ n ∈ inside, ∀ t ∈ a.transitionsAt n, t.next ∈ inside ∧
      ∀ rule follow, t ≠ .call rule follow)
    {c d : Config} {u : List Symbol} (h : Run a holds c u d) (hc : c.state ∈ inside)
    (hstack : ∀ follow ∈ c.stack, follow ∈ inside) : d.state ∈ inside := by
  induction h with
  | refl c => exact hc
  | step hs _ ih =>
    cases hs with
    | move hm =>
      obtain ⟨t, ht, rfl⟩ := hm.next
      exact ih (closed _ hc t ht).1 hstack
    | call ht => exact absurd rfl ((closed _ hc _ ht).2 _ _)
    | pop =>
      rw [List.forall_mem_cons] at hstack
      exact ih hstack.1 hstack.2

/-! ## The first token of a run -/

theorem Move.length_le {n m : Nat} {u : List Symbol} (h : Move a holds n u m) :
    u = [] ∨ ∃ x, u = [x] := by
  cases h with
  | epsilon | predicate => exact .inl rfl
  | wildcard _ x => exact .inr ⟨x, rfl⟩
  | @symbol _ _ _ x => exact .inr ⟨x, rfl⟩

/-- A run that consumes something goes to where its first token is consumed. -/
theorem Run.first {c d : Config} {x : Symbol} {w : List Symbol} (h : Run a holds c (x :: w) d) :
    ∃ n m stack, Run a holds c [] ⟨n, stack⟩ ∧ Move a holds n [x] m ∧
      Run a holds ⟨m, stack⟩ w d := by
  generalize hw : x :: w = u at h
  induction h with
  | refl c => cases hw
  | @step c d e u v hs run ih =>
    have silent : u = [] → ∃ n m stack, Run a holds c [] ⟨n, stack⟩ ∧ Move a holds n [x] m ∧
        Run a holds ⟨m, stack⟩ w e := by
      rintro rfl
      obtain ⟨n, m, stack, before, move, after⟩ := ih hw
      exact ⟨n, m, stack, .step hs before, move, after⟩
    cases hs with
    | @move n m u stack hm =>
      rcases hm.length_le with rfl | ⟨y, rfl⟩
      · exact silent rfl
      · cases hw
        exact ⟨n, m, stack, .refl _, hm, run⟩
    | call | pop => exact silent rfl

/-- A run can be halted behind any of the tokens it consumes. -/
theorem Run.split {c d : Config} {u v : List Symbol} (h : Run a holds c (u ++ v) d) :
    ∃ e, Run a holds c u e ∧ Run a holds e v d := by
  induction u generalizing c with
  | nil => exact ⟨c, .refl c, h⟩
  | cons x u ih =>
    obtain ⟨n, m, stack, before, move, after⟩ := h.first
    obtain ⟨e, run, rest⟩ := ih after
    exact ⟨e, before.trans (.step (.move move) run), rest⟩

theorem Offers.move {n : Nat} {x : Symbol} (h : a.Offers n x) : ∃ m, Move a holds n [x] m := by
  obtain ⟨t, ht, label, hl, hx⟩ := h
  cases t with
  | atom target | set target | notSet target => exact ⟨target, .symbol ht rfl hl hx⟩
  | wildcard target => exact ⟨target, .wildcard ht x⟩
  | epsilon | call | predicate => cases hl

end Automaton

end GrammarCompletion
