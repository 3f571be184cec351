import GrammarCompletion.Automaton.Build
import GrammarCompletion.Proofs.Automaton.Run

/-!
# What building leaves in place

Adding a state and connecting states only ever extend an automaton. Each operation is described by
what it does to the number of states, to the shape of each state and to its transitions.
-/

namespace GrammarCompletion.Automaton

variable {a : Automaton}

def shape? (a : Automaton) (n : Nat) : Option (StateKind × Nat) :=
  a.states[n]?.map fun s => (s.kind, s.rule)

theorem shape?_of_state {n : Nat} {s : State} (h : a.states[n]? = some s) :
    a.shape? n = some (s.kind, s.rule) := by
  simp [shape?, h]

theorem state_of_shape? {n : Nat} {kind : StateKind} {rule : Nat}
    (h : a.shape? n = some (kind, rule)) :
    ∃ s, a.states[n]? = some s ∧ s.kind = kind ∧ s.rule = rule := by
  simpa [shape?, Option.map_eq_some_iff] using h

theorem lt_size_of_shape? {n : Nat} {shape : StateKind × Nat} (h : a.shape? n = some shape) :
    n < a.states.size := by
  obtain ⟨s, hs, -⟩ := Option.map_eq_some_iff.mp h
  exact (Array.getElem?_eq_some_iff.mp hs).choose

theorem isStop_iff {n : Nat} : a.IsStop n ↔ ∃ rule, a.shape? n = some (.ruleStop, rule) := by
  constructor
  · rintro ⟨s, hs, hk⟩
    exact ⟨s.rule, by rw [shape?_of_state hs, hk]⟩
  · rintro ⟨rule, h⟩
    obtain ⟨s, hs, hk, -⟩ := state_of_shape? h
    exact ⟨s, hs, hk⟩

theorem lt_size_of_mem {n : Nat} {t : Transition} (h : t ∈ a.transitionsAt n) :
    n < a.states.size := by
  cases hs : a.states[n]? with
  | none => simp [transitionsAt, hs] at h
  | some s => exact (Array.getElem?_eq_some_iff.mp hs).choose

theorem transitionsAt_of_size_le {n : Nat} (h : a.states.size ≤ n) : a.transitionsAt n = [] := by
  simp [transitionsAt, h]

/-! ## Single operations -/

section
variable (a) (rule source n : Nat) (kind : StateKind) (t : Transition) (symbol : Symbol)

@[simp] theorem size_addState : (a.addState rule kind).states.size = a.states.size + 1 := by
  simp [addState]

@[simp] theorem rules_addState : (a.addState rule kind).rules = a.rules := rfl

@[simp] theorem shape?_addState :
    (a.addState rule kind).shape? n =
      if n = a.states.size then some (kind, rule) else a.shape? n := by
  simp only [shape?, addState, Array.getElem?_push]
  split <;> rfl

@[simp] theorem transitionsAt_addState :
    (a.addState rule kind).transitionsAt n = a.transitionsAt n := by
  simp only [transitionsAt, addState, Array.getElem?_push]
  split
  · subst n
    simp
  · rfl

@[simp] theorem states_widen : (a.widen symbol).states = a.states := by
  unfold widen
  split <;> rfl

@[simp] theorem rules_widen : (a.widen symbol).rules = a.rules := by
  unfold widen
  split <;> rfl

@[simp] theorem states_connect :
    (a.connect source t).states =
      a.states.modify source fun s => { s with transitions := s.transitions ++ [t] } := by
  unfold connect
  split <;> simp only [addTransition, widenToLabel] <;> (try split) <;> simp

@[simp] theorem rules_connect : (a.connect source t).rules = a.rules := by
  unfold connect
  split <;> simp only [addTransition, widenToLabel] <;> (try split) <;> simp

@[simp] theorem size_connect : (a.connect source t).states.size = a.states.size := by
  simp

@[simp] theorem shape?_connect : (a.connect source t).shape? n = a.shape? n := by
  simp only [shape?, states_connect, Array.getElem?_modify]
  split <;> cases a.states[n]? <;> rfl

@[simp] theorem shape?_widen : (a.widen symbol).shape? n = a.shape? n := by
  simp [shape?]

@[simp] theorem transitionsAt_widen : (a.widen symbol).transitionsAt n = a.transitionsAt n := by
  simp [transitionsAt]

end

theorem transitionsAt_connect {source : Nat} (h : source < a.states.size) (t : Transition)
    (n : Nat) :
    (a.connect source t).transitionsAt n =
      if n = source then a.transitionsAt n ++ [t] else a.transitionsAt n := by
  simp only [transitionsAt, states_connect, Array.getElem?_modify]
  by_cases hn : n = source
  · subst n
    simp [h]
  · rw [if_neg (Ne.symm hn), if_neg hn]

theorem mem_transitionsAt_connect {source n : Nat} {t u : Transition}
    (h : u ∈ (a.connect source t).transitionsAt n) : u = t ∨ u ∈ a.transitionsAt n := by
  by_cases inside : source < a.states.size
  · rw [transitionsAt_connect inside] at h
    by_cases here : n = source
    · rw [if_pos here, List.mem_append, List.mem_singleton] at h
      exact h.symm
    · rw [if_neg here] at h
      exact .inr h
  · have same : (a.connect source t).states = a.states := by
      rw [states_connect]
      exact Array.ext_getElem? fun i => by
        rw [Array.getElem?_modify]
        split
        · next here => simp [← here, Nat.not_lt.mp inside]
        · rfl
    rw [transitionsAt, same] at h
    exact .inr h

/-- The alphabet reaches the symbol, and all that it reached before. -/
theorem le_maxSymbol_widen (a : Automaton) (symbol : Symbol) :
    a.maxSymbol ≤ (a.widen symbol).maxSymbol ∧ symbol ≤ (a.widen symbol).maxSymbol := by
  unfold widen
  split
  · next wider => exact ⟨Int64.le_of_lt wider, Int64.le_refl symbol⟩
  · next reached => exact ⟨Int64.le_refl _, Int64.not_lt.mp reached⟩

theorem le_maxSymbol_widenToLabel (a : Automaton) (label : Option IntervalSet) :
    a.maxSymbol ≤ (a.widenToLabel label).maxSymbol ∧
      ∀ r ∈ (label.getD IntervalSet.empty).ranges.getLast?, r.hi ≤ (a.widenToLabel label).maxSymbol := by
  unfold widenToLabel
  split
  · next r last =>
    rw [last]
    simpa using a.le_maxSymbol_widen r.hi
  · next none =>
    rw [none]
    simp

theorem maxSymbol_le_connect (a : Automaton) (source : Nat) (t : Transition) :
    a.maxSymbol ≤ (a.connect source t).maxSymbol := by
  cases t with
  | atom target symbol => exact (a.le_maxSymbol_widen symbol).1
  | set target label | notSet target label => exact (a.le_maxSymbol_widenToLabel label).1
  | epsilon | wildcard | call | predicate => exact Int64.le_refl _

/-! ## Automata that were built -/

/-- The automaton comes from the empty one by declaring rules, adding states and connecting them
in any order. -/
inductive Assembled : Automaton → Prop
  | empty : Assembled Automaton.empty
  | addRule {a : Automaton} (h : Assembled a) (name : Bytes) : Assembled (a.addRule name)
  | addState {a : Automaton} (h : Assembled a) (rule : Nat) (kind : StateKind) :
      Assembled (a.addState rule kind)
  | connect {a : Automaton} (h : Assembled a) (source : Nat) (t : Transition) :
      Assembled (a.connect source t)
  | widen {a : Automaton} (h : Assembled a) (symbol : Symbol) : Assembled (a.widen symbol)

/-- The start and the stop state of every rule are there and belong to it. -/
def RulesInPlace (a : Automaton) : Prop :=
  ∀ (i : Nat) (r : Rule), a.rules[i]? = some r →
    a.shape? r.start = some (.ruleStart, i) ∧ a.shape? r.stop = some (.ruleStop, i)

theorem RulesInPlace.eq_of_start (h : a.RulesInPlace) {i j : Nat} {r r' : Rule}
    (hr : a.rules[i]? = some r) (hr' : a.rules[j]? = some r') (same : r.start = r'.start) :
    r = r' := by
  have shape := (h i r hr).1
  rw [same, (h j r' hr').1] at shape
  cases shape
  exact Option.some.inj (hr.symm.trans hr')

theorem RulesInPlace.addState (h : a.RulesInPlace) (rule : Nat) (kind : StateKind) :
    (a.addState rule kind).RulesInPlace := by
  intro i r hr
  obtain ⟨hs, he⟩ := h i r hr
  have hs' := lt_size_of_shape? hs
  have he' := lt_size_of_shape? he
  rw [shape?_addState, shape?_addState, if_neg (by omega), if_neg (by omega)]
  exact ⟨hs, he⟩

theorem RulesInPlace.addRule (h : a.RulesInPlace) (name : Bytes) :
    (a.addRule name).RulesInPlace := by
  intro i r hr
  have hrules : (a.addRule name).rules =
      a.rules.push ⟨a.rules.size, name, a.nextState, a.nextState + 1⟩ := rfl
  have hshape : ∀ n, (a.addRule name).shape? n =
      if n = a.states.size + 1 then some (.ruleStop, a.rules.size)
      else if n = a.states.size then some (.ruleStart, a.rules.size) else a.shape? n := by
    intro n
    simp only [Automaton.addRule, shape?_addState, size_addState]
    rfl
  rw [hrules, Array.getElem?_push] at hr
  split at hr
  · subst i
    cases hr
    simp [hshape, nextState]
  · obtain ⟨hs, he⟩ := h i r hr
    have hs' := lt_size_of_shape? hs
    have he' := lt_size_of_shape? he
    rw [hshape, hshape, if_neg (by omega), if_neg (by omega), if_neg (by omega),
      if_neg (by omega)]
    exact ⟨hs, he⟩

theorem Assembled.rulesInPlace (h : a.Assembled) : a.RulesInPlace := by
  induction h with
  | empty => intro i r hr; simp [Automaton.empty] at hr
  | addRule _ name ih => exact ih.addRule name
  | addState _ rule kind ih => exact ih.addState rule kind
  | connect _ source t ih =>
    intro i r hr
    rw [rules_connect] at hr
    simpa using ih i r hr
  | widen _ symbol ih =>
    intro i r hr
    rw [rules_widen] at hr
    simpa using ih i r hr

/-- No label whose complement is taken goes beyond the alphabet. -/
def Spans (a : Automaton) : Prop :=
  ∀ (n target : Nat) (label : Option IntervalSet), .notSet target label ∈ a.transitionsAt n →
    ∀ r ∈ (label.getD IntervalSet.empty).ranges.getLast?, r.hi ≤ a.maxSymbol

/-- The alphabet only ever grows, so a label that it reached stays within it, whatever is widened
later. -/
theorem Assembled.spans (h : a.Assembled) : a.Spans := by
  induction h with
  | empty =>
    intro n target label member
    simp [Automaton.empty, transitionsAt] at member
  | @addRule a _ name ih =>
    intro n target label member
    simp only [Automaton.addRule, transitionsAt_addState] at member
    exact ih n target label member
  | addState _ rule kind ih =>
    intro n target label member
    rw [transitionsAt_addState] at member
    exact ih n target label member
  | @connect a _ source t ih =>
    intro n target label member r last
    rcases mem_transitionsAt_connect member with rfl | old
    · exact (a.le_maxSymbol_widenToLabel label).2 r last
    · exact Int64.le_trans (ih n target label old r last) (a.maxSymbol_le_connect source t)
  | @widen a _ symbol ih =>
    intro n target label member r last
    rw [transitionsAt_widen] at member
    exact Int64.le_trans (ih n target label member r last) (a.le_maxSymbol_widen symbol).1

def StaysInRule (a : Automaton) : Prop :=
  ∀ (n : Nat) (s : State), a.states[n]? = some s → ∀ t ∈ s.transitions,
    ∃ next : State, a.states[t.next]? = some next ∧ next.rule = s.rule

theorem StaysInRule.shape?_next (h : a.StaysInRule) {n rule : Nat} {kind : StateKind}
    {t : Transition} (hn : a.shape? n = some (kind, rule)) (ht : t ∈ a.transitionsAt n) :
    ∃ kind', a.shape? t.next = some (kind', rule) := by
  obtain ⟨s, hs, -, rfl⟩ := state_of_shape? hn
  rw [transitionsAt_of_state hs] at ht
  obtain ⟨next, hnext, hrule⟩ := h n s hs t ht
  exact ⟨next.kind, by rw [shape?_of_state hnext, hrule]⟩

theorem StaysInRule.shape?_of_path (h : a.StaysInRule) {holds : PredicateCall → Prop}
    {n k rule : Nat} {w : List Symbol} (path : Path a holds n w k)
    (hn : ∃ kind, a.shape? n = some (kind, rule)) : ∃ kind, a.shape? k = some (kind, rule) := by
  induction path with
  | refl n => exact hn
  | move hm _ ih =>
    obtain ⟨kind, hn⟩ := hn
    obtain ⟨t, ht, rfl⟩ := hm.next
    exact ih (h.shape?_next hn ht)
  | call hc _ _ _ _ _ ih =>
    obtain ⟨kind, hn⟩ := hn
    exact ih (h.shape?_next hn hc)

def StopsAreRuleStops (a : Automaton) : Prop :=
  ∀ n, a.IsStop n ↔ ∃ (i : Nat) (r : Rule), a.rules[i]? = some r ∧ r.stop = n

/-- Labels hold no token types but those of users. -/
def PositiveLabels (a : Automaton) : Prop :=
  ∀ n, ∀ t ∈ a.transitionsAt n,
    match t with
    | .atom _ x => Symbol.firstUser ≤ x
    | .set _ (some label) | .notSet _ (some label) => ∀ x ∈ label, Symbol.firstUser ≤ x
    | _ => True

theorem PositiveLabels.le_of_offers (h : a.PositiveLabels) {n : Nat} {x : Symbol}
    (hx : a.Offers n x) : Symbol.firstUser ≤ x := by
  obtain ⟨t, ht, label, hl, hx⟩ := hx
  have positive := h n t ht
  cases t with
  | atom target y =>
    cases hl
    cases IntervalSet.mem_singleton.mp hx
    exact positive
  | set target label' =>
    cases hl
    exact positive x hx
  | notSet target label' =>
    cases hl
    exact (IntervalSet.atLeast_complement _ _ _).le hx
  | wildcard target =>
    cases hl
    exact (IntervalSet.atLeast_range _ _).le hx
  | epsilon | call | predicate => cases hl

/-- No label holds the greatest number, and neither does the alphabet. -/
def SmallLabels (a : Automaton) : Prop :=
  a.maxSymbol < Int64.maxValue ∧ ∀ n, ∀ t ∈ a.transitionsAt n,
    match t with
    | .atom _ x => x < Int64.maxValue
    | .set _ (some label) => ∀ x ∈ label, x < Int64.maxValue
    | _ => True

theorem SmallLabels.lt_of_offers (h : a.SmallLabels) {n : Nat} {x : Symbol} (hx : a.Offers n x) :
    x < Int64.maxValue := by
  obtain ⟨greatest, labels⟩ := h
  obtain ⟨t, ht, label, hl, hx⟩ := hx
  have small := labels n t ht
  cases t with
  | atom target y =>
    cases hl
    cases IntervalSet.mem_singleton.mp hx
    exact small
  | set target label' =>
    cases hl
    exact small x hx
  | notSet target label' =>
    cases hl
    exact Int64.lt_of_le_of_lt ((IntervalSet.atMost_complement _ _ _).le hx) greatest
  | wildcard target =>
    cases hl
    exact Int64.lt_of_le_of_lt ((IntervalSet.atMost_range _ _).le hx) greatest
  | epsilon | call | predicate => cases hl

end GrammarCompletion.Automaton
