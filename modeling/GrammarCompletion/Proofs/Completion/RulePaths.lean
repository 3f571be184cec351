import GrammarCompletion.Proofs.Completion.Soundness
import Mathlib.Data.List.Chain

/-!
# Paths to preferred rules

A preferred rule is recorded with the rules above it. These are the rules of the frames, followed at
the caret by a path that was stored with a follow set. Every frame was pushed for a call that leaves
a state of the rule of the frame below it, and a stored path consists of the rules that a run of the
survey had open. So each rule of a recorded path is called by the one before it.
-/

namespace GrammarCompletion

open Automaton

namespace Automaton

variable {a : Automaton} {holds : PredicateCall → Prop}

/-- A call of the second rule leaves a state of the first one. -/
def Calls (a : Automaton) (caller callee : Int) : Prop :=
  ∃ outer inner n follow : Nat, caller = outer ∧ callee = inner ∧ a.owner? n = some outer ∧
    .call inner follow ∈ a.transitionsAt n

/-- Rules that lead from a root downwards, each called by the one before it. -/
structure CallPath (a : Automaton) (root : Nat) (rules : List Nat) : Prop where
  head : rules.head? = some root
  chain : rules.IsChain fun caller callee : Nat => a.Calls caller callee

namespace CallPath

variable {root caller callee : Nat} {rules path : List Nat}

theorem singleton (root : Nat) : a.CallPath root [root] := ⟨rfl, List.isChain_singleton root⟩

theorem append (h : a.CallPath root (rules ++ [caller])) (h' : a.CallPath caller (caller :: path)) :
    a.CallPath root (rules ++ caller :: path) := by
  have same : rules ++ caller :: path = (rules ++ [caller]) ++ path := by simp
  constructor
  · rw [same, List.head?_append, h.head]
    rfl
  · rw [same, List.isChain_append]
    refine ⟨h.chain, h'.chain.tail, ?_⟩
    intro outer last inner first
    simp only [List.getLast?_concat, Option.mem_some_iff] at last
    subst last
    exact (List.isChain_cons.mp h'.chain).1 inner first

theorem call {n follow : Nat} (h : a.CallPath root (rules ++ [caller]))
    (owned : a.owner? n = some caller) (hc : .call callee follow ∈ a.transitionsAt n) :
    a.CallPath root (rules ++ [caller] ++ [callee]) := by
  rw [List.append_assoc]
  refine h.append ⟨rfl, List.isChain_pair.mpr ?_⟩
  exact ⟨caller, callee, n, follow, rfl, rfl, owned, hc⟩

theorem upper (h : a.CallPath root (rules ++ caller :: path)) :
    a.CallPath root (rules ++ [caller]) := by
  have same : rules ++ caller :: path = (rules ++ [caller]) ++ path := by simp
  have head := h.head
  have chain := h.chain
  rw [same] at head chain
  refine ⟨?_, chain.left_of_append⟩
  rwa [List.head?_append_of_ne_nil _ (by simp)] at head

end CallPath

theorem Descent.callPath (stays : a.StaysInRule) (inPlace : a.RulesInPlace) {rule n k : Nat}
    {u : List Symbol} {stack : List Nat} (h : Descent a holds n u k stack)
    (owned : a.owner? n = some rule) : a.CallPath rule (a.activeRules ⟨k, stack⟩) := by
  induction h with
  | level path =>
    rw [activeRules_nil ((stays.owner?_path path).trans owned)]
    exact .singleton rule
  | @enter m callee follow k r u v stack upper hc hr path ih =>
    obtain ⟨state, found⟩ : ∃ state, a.states[m]? = some state :=
      ⟨_, Array.getElem?_eq_getElem (lt_size_of_mem hc)⟩
    have caller : a.owner? m = some state.rule := by simp [owner?, found]
    have above := activeRules_append (a := a) m [] stack
    rw [List.nil_append, activeRules_nil caller] at above
    rw [activeRules_congr (stays.owner?_path path), activeRules_call stays inPlace hc hr, above]
    rw [above] at ih
    exact ih.call caller hc

theorem Met.callPath (stays : a.StaysInRule) (inPlace : a.RulesInPlace) {rule n : Nat} {r : Rule}
    {path : List Nat} (hr : a.rules[rule]? = some r) (h : Met a holds r.start path n) :
    a.CallPath rule (rule :: path) := by
  have owned : a.owner? r.start = some rule := owner?_of_shape? (inPlace rule r hr).1
  obtain ⟨stack, run, active⟩ := h.run_active stays
  rw [activeRules_nil owned] at active
  rw [← List.singleton_append, ← active]
  exact (run_iff_descent.mp run).callPath stays inPlace owned

end Automaton

/-! ## Records -/

/-- Every recorded rule is the outermost preferred one of a path of calls from the root and is
recorded with the rules above it. Below a preferred root nothing else is recorded. -/
structure Candidates.Leads (a : Automaton) (preferred : List Int) (root : Nat) (c : Candidates) :
    Prop where
  rules : ∀ (rule : Int) (path : List Int), c.rules[rule]? = some path → rule ∈ preferred ∧
    (∀ outer ∈ path, outer ∉ preferred) ∧
    ∃ rules : List Nat, path ++ [rule] = rules.map Int.ofNat ∧ a.CallPath root rules
  tokens : (root : Int) ∈ preferred → ∀ x, x ∉ c.tokens

namespace Candidates.Leads

variable {a : Automaton} {c d : Candidates} {engine : Engine} {frames : List Frame} {root : Nat}
  {path : List Nat} {set : IntervalSet} {following : List Symbol}

theorem empty : Leads a engine.preferred root {} := ⟨by simp, by simp⟩

theorem addOuter (h : c.Leads a engine.preferred root) {stack : List Nat} {rule : Nat}
    (calls : a.CallPath root stack) (found : outermost? engine.preferred stack = some rule) :
    (c.addRule rule (above engine.preferred stack)).Leads a engine.preferred root := by
  obtain ⟨preferred, upper, lower, rfl, others⟩ := List.find?_eq_some_iff_append.mp found
  have cut : above engine.preferred (upper ++ rule :: lower) = upper.map Int.ofNat := by
    unfold above
    rw [List.takeWhile_append_of_pos others, List.takeWhile_cons_of_neg (by simpa using preferred),
      List.append_nil]
  constructor
  · intro rule' path' found'
    rcases getElem?_addRule found' with known | ⟨rfl, rfl⟩
    · exact h.rules rule' path' known
    · rw [cut]
      refine ⟨List.contains_iff_mem.mp preferred, ?_, upper ++ [rule], by simp, calls.upper⟩
      intro outer member
      obtain ⟨p, hp, rfl⟩ := List.mem_map.mp member
      simpa using others p hp
  · rw [tokens_addRule]
    exact h.tokens

theorem addBelow (h : c.Leads a engine.preferred root)
    (calls : a.CallPath root (callStack frames ++ path))
    (done : c.addBelow engine frames path set following = .ok d) :
    d.Leads a engine.preferred root := by
  rw [addBelow_eq] at done
  split at done
  case h_1 rule found =>
    cases done
    exact h.addOuter calls found
  case h_2 none =>
    constructor
    · rw [rules_addSymbols done]
      exact h.rules
    · -- The root is on the stack, so a preferred one would have been recorded.
      intro preferred
      have member := List.mem_of_head? calls.head
      exact absurd preferred (by simpa using List.find?_eq_none.mp none root member)

theorem addOutermost (h : c.Leads a engine.preferred root)
    (calls : a.CallPath root (callStack frames ++ path)) :
    (c.addOutermost engine frames path).Leads a engine.preferred root := by
  rw [addOutermost_eq]
  split
  case h_1 rule found => exact h.addOuter calls found
  case h_2 => exact h

theorem addFollowSets (h : c.Leads a engine.preferred root) {rule : Nat} {sets : FollowSets}
    (calls : a.CallPath root (callStack frames ++ [rule]))
    (paths : ∀ set ∈ sets.sets, a.CallPath rule (rule :: set.path))
    (done : c.addFollowSets engine frames rule sets = .ok d) :
    d.Leads a engine.preferred root := by
  unfold Candidates.addFollowSets at done
  split at done
  · cases done
    exact h.addOutermost calls
  · exact foldlM_induction (Leads a engine.preferred root)
      (fun _ set member _ hc => hc.addBelow (calls.append (paths set member))) h done

end Candidates.Leads

/-! ## Requests -/

/-- A walk stays in its rule, so a rule that it enters is called from there. -/
theorem Request.stableAlong_leads {q : Request} (inPlace : q.engine.automaton.RulesInPlace)
    (stays : q.engine.automaton.StaysInRule) (root : Nat) :
    q.StableAlong (FollowSets.Surveyed q.engine.automaton fun _ => True)
      (fun rule n => q.engine.automaton.owner? n = some rule)
      (fun frames rule => q.engine.automaton.CallPath root (callStack frames ++ [rule]))
      (Candidates.Leads q.engine.automaton q.engine.preferred root) where
  first rule r hr := owner?_of_shape? (inPlace rule r hr).1
  next rule n owned t ht := (stays.owner?_next ht).trans owned
  call frames e seed r n rule follow enters _ owned hc := by
    rw [callStack_cons]
    exact enters.call owned hc
  below c d frames e seed r n t label following enters _ _ _ _ hc := by
    apply hc.addBelow
    rwa [List.append_nil, callStack_cons]
  outermost c frames e seed r enters _ hc := by
    apply hc.addOutermost
    rwa [List.append_nil, callStack_cons]
  sets c d frames rule r sets enters hr surveyed hc := by
    obtain ⟨_, _, _, confirms, found⟩ := surveyed
    refine hc.addFollowSets enters fun set member => ?_
    obtain ⟨n, met⟩ := (FollowSets.ofRule_sound hr inPlace stays confirms found).paths set member
    exact met.callPath stays inPlace hr

namespace Engine

/-- A recorded rule is preferred and no rule above it is. Its path leads down from the context's
rule, and each rule of it is called by a transition that leaves a state of the one before. If the
context's rule is itself preferred, it is the only candidate. -/
theorem rules_outermost {engine : Engine} (assembled : engine.automaton.Assembled)
    (stays : engine.automaton.StaysInRule) {cache : Cache}
    (hc : cache.Faithful engine.automaton engine.identity fun _ => True) {stream : TokenStream}
    {caret : Int} {context : RuleContext} {evaluator : Option Evaluator} {candidates : Candidates}
    (h : (engine.collect cache stream caret context evaluator).result = .ok candidates) :
    (∀ (rule : Int) (path : List Int), candidates.rules[rule]? = some path →
      rule ∈ engine.preferred ∧ (∀ outer ∈ path, outer ∉ engine.preferred) ∧
      (path ++ [rule]).head? = some context.rule ∧
      (path ++ [rule]).IsChain engine.automaton.Calls) ∧
    (context.rule ∈ engine.preferred → candidates.tokenTypes = [] ∧
      ∀ (rule : Int) (path : List Int), candidates.rules[rule]? = some path →
        rule = context.rule ∧ path = []) := by
  obtain ⟨r, window, ends, s, hr, hw, hs, rfl⟩ := search_of_collect h
  have inPlace := assembled.rulesInPlace
  obtain ⟨root, same⟩ : ∃ root : Nat, context.rule = root := by
    apply Int.eq_ofNat_of_zero_le
    by_contra negative
    simp [rule?, Int.not_le.mp negative] at hr
  let q : Request := ⟨engine, window.toArray, evaluator⟩
  have search : Yields (fun _ => True) (q.enterRule [] root 0) { cache := cache } _ :=
    Request.enterRule_stable inPlace (Request.finds_surveyed (Survey.confirms_true _))
      q.permits_all (.inl trivial) (Request.stableAlong_leads inPlace stays root) (.singleton root)
      ⟨.empty, hc⟩
  rw [same] at hs ⊢
  obtain ⟨leads, -⟩ := search.of_ok hs
  have entries : ∀ (rule : Int) (path : List Int), s.candidates.rules[rule]? = some path →
      rule ∈ engine.preferred ∧ (∀ outer ∈ path, outer ∉ engine.preferred) ∧
      (path ++ [rule]).head? = some (root : Int) ∧
      (path ++ [rule]).IsChain engine.automaton.Calls := by
    intro rule path found
    obtain ⟨preferred, others, rules, whole, calls⟩ := leads.rules rule path found
    refine ⟨preferred, others, ?_, ?_⟩
    · rw [whole, List.head?_map, calls.head]
      rfl
    · rw [whole, List.isChain_map]
      exact calls.chain
  refine ⟨entries, fun preferred => ⟨?_, fun rule path found => ?_⟩⟩
  · refine List.eq_nil_iff_forall_not_mem.mpr fun x member => ?_
    exact leads.tokens preferred x (Std.TreeMap.mem_keys.mp member)
  · obtain ⟨-, others, head, -⟩ := entries rule path found
    -- A path that is not empty would start with the context's rule.
    cases path with
    | nil => exact ⟨Option.some.inj head, rfl⟩
    | cons outer path =>
      cases head
      exact absurd preferred (others _ List.mem_cons_self)

/-- Four rules, each of which calls the next; the first two have a token before the call. -/
def nested : Engine where
  automaton := (((((((((((Automaton.empty.addRule "a").addRule "b").addRule "c").addRule "d").addState
    0 .basic).addState 1 .basic).connect 0 (.atom 8 1)).connect 8 (.call 1 1)).connect 2
    (.atom 9 1)).connect 9 (.call 2 3)).connect 4 (.call 3 5)).connect 6 (.atom 7 2)
  identity := .automaton 0
  preferred := [3]
  ignored := []

/-- The path of the last rule: two frames, the rule entered at the caret, and a path that was stored
with its follow set. -/
theorem rules_outermost_nested :
    ∃ candidates, (nested.collect {} (.ofTokens [{ symbol := 1 }, { symbol := 1 }, { symbol := 2 }])
        2 {} none).result = .ok candidates ∧ candidates.rules[(3 : Int)]? = some [0, 1, 2] ∧
      nested.automaton.Calls 0 1 ∧ nested.automaton.Calls 1 2 ∧ nested.automaton.Calls 2 3 := by
  have assembled : nested.automaton.Assembled := by
    simp only [nested]
    exact .connect (.connect (.connect (.connect (.connect (.connect (.addState (.addState (.addRule
      (.addRule (.addRule (.addRule .empty _) _) _) _) _ _) _ _) _ _) _ _) _ _) _ _) _ _) _ _
  have stays : nested.automaton.StaysInRule := by
    intro n s hs t ht
    have inside : ∀ s ∈ nested.automaton.states.toList, ∀ t ∈ s.transitions,
        nested.automaton.states[t.next]?.map State.rule = some s.rule := by decide
    simpa using inside s (Array.mem_toList_iff.mpr (Array.mem_of_getElem? hs)) t ht
  obtain ⟨candidates, h, found⟩ := exists_ok_of_toOption (show (nested.collect {}
      (.ofTokens [{ symbol := 1 }, { symbol := 1 }, { symbol := 2 }]) 2 {} none).result.toOption.map
      (fun c => c.rules[(3 : Int)]?) = some (some [0, 1, 2]) by decide +kernel)
  obtain ⟨-, -, -, chain⟩ := (rules_outermost assembled stays Cache.faithful_empty h).1 3 _ found
  simp only [List.cons_append, List.nil_append, List.isChain_cons_cons, List.isChain_singleton,
    and_true] at chain
  exact ⟨candidates, h, found, chain⟩

end Engine

end GrammarCompletion
