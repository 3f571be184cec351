import GrammarCompletion.Proofs.Automaton.Build

/-!
# Active rules

A run has entered and not left the rules that own the follow states on its stack and the rule that
owns its state. A call adds the called rule to them; within a rule they stay the same.
-/

namespace GrammarCompletion.Automaton

variable {a : Automaton}

def owner? (a : Automaton) (n : Nat) : Option Nat := a.states[n]?.map State.rule

/-- The rules that are open at a place of a run, outermost first. -/
def activeRules (a : Automaton) (c : Config) : List Nat :=
  ((c.state :: c.stack).filterMap a.owner?).reverse

theorem owner?_of_shape? {n rule : Nat} {kind : StateKind} (h : a.shape? n = some (kind, rule)) :
    a.owner? n = some rule := by
  obtain ⟨s, hs, -, rfl⟩ := state_of_shape? h
  simp [owner?, hs]

theorem StaysInRule.owner?_next (h : a.StaysInRule) {n : Nat} {t : Transition}
    (ht : t ∈ a.transitionsAt n) : a.owner? t.next = a.owner? n := by
  have known := lt_size_of_mem ht
  have hn : a.states[n]? = some a.states[n] := Array.getElem?_eq_getElem known
  rw [transitionsAt_of_state hn] at ht
  obtain ⟨next, hnext, same⟩ := h n _ hn t ht
  simp [owner?, hnext, hn, same]

theorem StaysInRule.owner?_path (h : a.StaysInRule) {holds : PredicateCall → Prop} {n k : Nat}
    {u : List Symbol} (path : Path a holds n u k) : a.owner? k = a.owner? n := by
  induction path with
  | refl n => rfl
  | move hm _ ih =>
    obtain ⟨t, ht, rfl⟩ := hm.next
    rw [ih, h.owner?_next ht]
  | call hc _ _ _ _ _ ih =>
    rw [ih]
    exact h.owner?_next hc

theorem activeRules_congr {n m : Nat} (same : a.owner? m = a.owner? n) (stack : List Nat) :
    a.activeRules ⟨m, stack⟩ = a.activeRules ⟨n, stack⟩ := by
  simp [activeRules, List.filterMap_cons, same]

/-- What lies below a run on the stack stays outside of its rules. -/
theorem activeRules_append (n : Nat) (stack below : List Nat) :
    a.activeRules ⟨n, stack ++ below⟩ =
      (below.filterMap a.owner?).reverse ++ a.activeRules ⟨n, stack⟩ := by
  simp only [activeRules, ← List.cons_append, List.filterMap_append, List.reverse_append]

theorem activeRules_nil {n rule : Nat} (h : a.owner? n = some rule) :
    a.activeRules ⟨n, []⟩ = [rule] := by
  simp [activeRules, h]

theorem activeRules_call (stays : a.StaysInRule) (inPlace : a.RulesInPlace) {n rule follow : Nat}
    {r : Rule} (hc : .call rule follow ∈ a.transitionsAt n) (hr : a.rules[rule]? = some r)
    (stack : List Nat) :
    a.activeRules ⟨r.start, follow :: stack⟩ = a.activeRules ⟨n, stack⟩ ++ [rule] := by
  have entered : a.owner? r.start = some rule := owner?_of_shape? (inPlace rule r hr).1
  have caller : a.owner? follow = a.owner? n := stays.owner?_next hc
  simp [activeRules, List.filterMap_cons, entered, caller]

end GrammarCompletion.Automaton
