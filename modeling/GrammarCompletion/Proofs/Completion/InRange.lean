import GrammarCompletion.Proofs.Completion.Hints
import GrammarCompletion.Proofs.Completion.Termination

/-!
# Candidates name what is there

Every token type among the candidates and their hints is one of the automaton, and so is every rule
among the candidates and their paths. Types come from labels; rules are such as were entered, and no
rule is entered that does not exist.
-/

namespace GrammarCompletion

open Automaton

namespace Automaton

def HasType (a : Automaton) (x : Symbol) : Prop := Symbol.firstUser ≤ x ∧ x ≤ a.maxSymbol

def HasRule (a : Automaton) (rule : Int) : Prop := ∃ r, a.rule? rule = some r

/-- All labels hold token types of the automaton. -/
def Typed (a : Automaton) : Prop := ∀ n x, a.Offers n x → a.HasType x

theorem hasRule_natCast {a : Automaton} {rule : Nat} {r : Rule} (h : a.rules[rule]? = some r) :
    a.HasRule rule := by
  refine ⟨r, ?_⟩
  unfold rule?
  rw [if_neg (by omega)]
  exact h

end Automaton

variable {a : Automaton}

/-- The types and rules among the candidates are those of an automaton. -/
structure Candidates.Within (a : Automaton) (c : Candidates) : Prop where
  tokens : ∀ (x : Symbol) (hint : List Symbol), c.tokens[x]? = some hint →
    a.HasType x ∧ ∀ y ∈ hint, a.HasType y
  rules : ∀ (rule : Int) (path : List Int), c.rules[rule]? = some path →
    a.HasRule rule ∧ ∀ outer ∈ path, a.HasRule outer

def FollowSets.Within (a : Automaton) (sets : FollowSets) : Prop :=
  ∀ set ∈ sets.sets, (∀ x ∈ set.symbols, x = Symbol.nothing ∨ a.HasType x) ∧
    (∀ y ∈ set.following, a.HasType y) ∧ ∀ rule ∈ set.path, a.HasRule (rule : Nat)

/-! ## Records -/

namespace Candidates.Within

variable {c d : Candidates} {engine : Engine} {frames : List Frame} {path : List Nat}
  {set : IntervalSet} {following : List Symbol}

theorem addToken (h : c.Within a) {x : Symbol} (hx : a.HasType x)
    (hf : ∀ y ∈ following, a.HasType y) : (c.addToken x following).Within a := by
  constructor
  · intro y hint found
    by_cases same : y = x
    · subst same
      obtain ⟨hint', found', which⟩ := getElem?_addToken_self c y following
      cases found.symm.trans found'
      refine ⟨hx, ?_⟩
      rcases which with rfl | rfl
      · exact hf
      · simp
    · rw [getElem?_addToken_of_ne same] at found
      exact h.tokens y hint found
  · intro rule path found
    rw [rules_addToken] at found
    exact h.rules rule path found

theorem addRule (h : c.Within a) {rule : Int} {above : List Int} (hr : a.HasRule rule)
    (ha : ∀ outer ∈ above, a.HasRule outer) : (c.addRule rule above).Within a := by
  constructor
  · intro x hint found
    rw [tokens_addRule] at found
    exact h.tokens x hint found
  · intro other path found
    rcases getElem?_addRule found with known | ⟨rfl, rfl⟩
    · exact h.rules other path known
    · exact ⟨hr, ha⟩

theorem addSymbols (h : c.Within a) (hs : ∀ x ∈ set, x = Symbol.nothing ∨ a.HasType x)
    (hf : ∀ y ∈ following, a.HasType y) {ignored : List Symbol}
    (done : c.addSymbols ignored set following = .ok d) : d.Within a := by
  have elements : ∀ x ∈ set.elements, x = Symbol.nothing ∨ a.HasType x :=
    fun x hx => hs x (IntervalSet.mem_elements.mp hx)
  rw [addSymbols_eq_ok done, addListed]
  clear done
  generalize set.elements = all at elements
  induction all generalizing c with
  | nil => exact h
  | cons x all ih =>
    rw [List.forall_mem_cons] at elements
    rw [List.foldl_cons]
    split
    · exact ih h elements.2
    · next kept =>
      rw [not_or] at kept
      exact ih (h.addToken (elements.1.resolve_left kept.1) hf) elements.2

/-- The outermost preferred rule of a stack and the rules above it are in the stack. -/
theorem addOuter (h : c.Within a) {preferred : List Int} {stack : List Nat} {rule : Nat}
    (hs : ∀ r ∈ stack, a.HasRule (r : Nat)) (found : outermost? preferred stack = some rule) :
    (c.addRule rule (above preferred stack)).Within a := by
  apply h.addRule
  · exact hs rule (List.mem_of_find?_eq_some found)
  · intro outer member
    obtain ⟨r, hr, rfl⟩ := List.mem_map.mp member
    exact hs r ((List.takeWhile_prefix _).subset hr)

theorem addBelow (h : c.Within a) (hp : ∀ r ∈ callStack frames ++ path, a.HasRule (r : Nat))
    (hs : ∀ x ∈ set, x = Symbol.nothing ∨ a.HasType x) (hf : ∀ y ∈ following, a.HasType y)
    (done : c.addBelow engine frames path set following = .ok d) : d.Within a := by
  rw [addBelow_eq] at done
  split at done
  · next found =>
    cases done
    exact h.addOuter hp found
  · exact h.addSymbols hs hf done

theorem addOutermost (h : c.Within a) (hp : ∀ r ∈ callStack frames ++ path, a.HasRule (r : Nat)) :
    (c.addOutermost engine frames path).Within a := by
  rw [addOutermost_eq]
  split
  · next found => exact h.addOuter hp found
  · exact h

theorem addFollowSets (h : c.Within a) (ho : ∀ r ∈ callStack frames, a.HasRule (r : Nat))
    {rule : Nat} (hr : a.HasRule (rule : Nat)) {sets : FollowSets} (hs : sets.Within a)
    (done : c.addFollowSets engine frames rule sets = .ok d) : d.Within a := by
  unfold Candidates.addFollowSets at done
  split at done
  · cases done
    apply h.addOutermost
    rw [List.forall_mem_append, List.forall_mem_singleton]
    exact ⟨ho, hr⟩
  · refine foldlM_induction (Candidates.Within a) (fun c set member d hc => ?_) h done
    obtain ⟨symbols, following, path⟩ := hs set member
    apply hc.addBelow _ symbols following
    rw [List.forall_mem_append, List.forall_mem_cons]
    exact ⟨ho, hr, path⟩

end Candidates.Within

/-! ## Surveys -/

/-- What is forced is offered somewhere. -/
theorem offers_of_forcedFrom {ignored : List Symbol} {seen : List Nat} {n : Nat} :
    ∀ y ∈ forcedFrom a ignored seen n, ∃ m, a.Offers m y := by
  fun_induction forcedFrom a ignored seen n with
  | case4 _ _ _ _ _ _ _ _ ih => exact ih
  | case6 _ n _ s found _ target x only _ ih =>
    rw [List.forall_mem_cons]
    refine ⟨⟨n, .atom target x, ?_, _, rfl, IntervalSet.mem_singleton.mpr rfl⟩, ih⟩
    simp [transitionsAt_of_state found, only]
  | _ => simp

theorem Automaton.Typed.forcedAfter (h : a.Typed) (ignored : List Symbol) (t : Transition) :
    ∀ y ∈ forcedAfter a ignored t, a.HasType y := by
  intro y hy
  cases t with
  | atom | set | notSet =>
    obtain ⟨m, offers⟩ := offers_of_forcedFrom y hy
    exact h m y offers
  | epsilon | wildcard | predicate | call => simp [GrammarCompletion.forcedAfter] at hy

theorem Automaton.Typed.followSets (typed : a.Typed) {ignored : List Symbol} {sets : FollowSets}
    (h : sets.Stem a ignored) : sets.Within a := by
  intro set member
  have symbols := h.symbols (P := fun set => ∀ x ∈ set, x = Symbol.nothing ∨ a.HasType x)
    (fun x hx => .inl (IntervalSet.mem_singleton.mp hx))
    (fun n t ht label hl x hx => .inr (typed n x ⟨t, ht, label, hl, hx⟩)) set member
  refine ⟨symbols, ?_, fun rule hr => ?_⟩
  · rcases (h set member).origin with ⟨-, none⟩ | ⟨n, t, -, -, none | forced⟩
    · simp [none]
    · simp [none]
    · rw [forced]
      exact typed.forcedAfter ignored t
  · obtain ⟨r, known⟩ := (h set member).path rule hr
    exact hasRule_natCast known

/-! ## Requests -/

namespace Request

variable {q : Request}

theorem stableBelow_within (typed : q.engine.automaton.Typed) :
    q.StableBelow (fun _ => FollowSets.Stem q.engine.automaton q.engine.ignored)
      (fun frames => ∀ rule ∈ callStack frames, q.engine.automaton.HasRule (rule : Nat))
      (Candidates.Within q.engine.automaton) where
  push frames e seed r opens hr := by
    intro rule member
    simp only [callStack, List.map_cons, List.reverse_cons, List.mem_append, List.mem_singleton] at member
    rcases member with member | rfl
    · exact opens rule member
    · exact hasRule_natCast hr
  below c d frames n t label following opens ht hl hf hc := by
    apply hc.addBelow
    · simpa using opens
    · exact fun x hx => .inr (typed n x ⟨t, ht, label, hl, hx⟩)
    · rcases hf with rfl | rfl
      · simp
      · exact typed.forcedAfter _ t
  outermost c frames opens hc := hc.addOutermost (by simpa using opens)
  sets c d frames rule r sets opens hr hs hc :=
    hc.addFollowSets opens (hasRule_natCast hr) (typed.followSets hs)

/-- If all labels can be listed and the evaluator answers, so does the request, and its candidates
name what is there. -/
theorem enterRule_within (typed : q.engine.automaton.Typed)
    (hplace : q.engine.automaton.RulesInPlace) (labels : q.engine.automaton.ListableLabels)
    (unfailing : Unfailing q.evaluator) {cache : Cache}
    (hc : cache.Keeps q.engine.automaton q.engine.identity
      fun _ => FollowSets.Stem q.engine.automaton q.engine.ignored) (rule index : Nat) :
    ∃ ends s, q.enterRule [] rule index { cache := cache } = .ok ends s ∧
      s.candidates.Within q.engine.automaton ∧
      s.cache.Keeps q.engine.automaton q.engine.identity
        fun _ => FollowSets.Stem q.engine.automaton q.engine.ignored := by
  have finds : q.Finds fun _ => FollowSets.Stem q.engine.automaton q.engine.ignored :=
    fun _ _ _ found => FollowSets.stem_of_ofRule found
  have empty : Candidates.Within q.engine.automaton {} := by
    constructor
    · simp
    · simp
  have search : Yields (fun _ => False) (q.enterRule [] rule index) { cache := cache } _ :=
    enterRule_keeps hplace finds ⟨.inr unfailing, .inr labels⟩
      (.inr fun _ _ stem => stem.listable labels) (stableBelow_within typed)
      (by simp [callStack]) ⟨empty, hc⟩
  exact search.exists_ok

end Request

end GrammarCompletion
