import GrammarCompletion.Proofs.Completion.Modular
import GrammarCompletion.Proofs.Completion.Soundness

/-!
# Predicates that are denied

A walk asks the evaluator of its own request, so a predicate that is denied blocks its branch up to
the last token before the caret. Behind it rules are looked up in follow sets, and those remember
what the evaluator of the request that found them has affirmed. So a predicate that stands at the
start of a rule can be passed there though the evaluator denies it, and no other one can.
-/

namespace GrammarCompletion

open Automaton

namespace Automaton

variable {a : Automaton} {holds holds' : PredicateCall → Prop} {rule : Nat} {r : Rule}

/-- Some rule comes to the predicate before any token. -/
def GuardsStart (a : Automaton) (call : PredicateCall) : Prop :=
  ∃ (rule : Nat) (r : Rule) (n : Nat) (stack : List Nat) (target : Nat),
    a.rules[rule]? = some r ∧ Run a (fun _ => True) ⟨r.start, []⟩ [] ⟨n, stack⟩ ∧
      .predicate target call.rule call.index ∈ a.transitionsAt n

/-- A run from the start of a rule that consumes nothing asks only for predicates that guard the
start of a rule. -/
theorem Run.of_guardsStart (hr : a.rules[rule]? = some r)
    (more : ∀ call, a.GuardsStart call → holds call → holds' call) {c d : Config} {u : List Symbol}
    (before : Run a (fun _ => True) ⟨r.start, []⟩ [] c) (h : Run a holds c u d) (silent : u = []) :
    Run a holds' c u d := by
  induction h with
  | refl c => exact .refl c
  | @step c _ _ _ _ hs _ ih =>
    obtain ⟨rfl, rfl⟩ := List.append_eq_nil_iff.mp silent
    have here := before.trans (.single (hs.mono fun _ _ _ _ _ => trivial))
    refine .step (hs.mono fun target rule index ht hp => ?_) (ih here rfl)
    exact more _ ⟨_, r, c.state, c.stack, target, hr, before, ht⟩ hp

theorem Met.of_guardsStart (hr : a.rules[rule]? = some r)
    (more : ∀ call, a.GuardsStart call → holds call → holds' call) {path : List Nat} {n : Nat}
    (h : Met a holds r.start path n) : Met a holds' r.start path n := by
  obtain ⟨rule', r', hr', shape, first, stack, run, active⟩ := h
  refine ⟨rule', r', hr', shape, ?_, stack, .of_guardsStart hr more (.refl _) run rfl, active⟩
  rw [← run_iff_path] at first ⊢
  exact .of_guardsStart hr' more (.refl _) first rfl

end Automaton

/-- Follow sets are real whatever becomes of predicates that no rule comes to before any token. -/
theorem FollowSets.Sound.of_guardsStart {a : Automaton} {holds holds' : PredicateCall → Prop}
    {rule : Nat} {r : Rule} {sets : FollowSets} (h : sets.Sound a holds r)
    (hr : a.rules[rule]? = some r)
    (more : ∀ call, a.GuardsStart call → holds call → holds' call) : sets.Sound a holds' r where
  eq_ofSets := h.eq_ofSets
  sets := by
    intro set member
    rcases h.sets set member with ⟨mark, path⟩ | offered
    · rw [← run_iff_path] at path
      exact .inl ⟨mark, run_iff_path.mp (.of_guardsStart hr more (.refl _) path rfl)⟩
    · refine .inr fun x hx => ?_
      obtain ⟨n, met, offers⟩ := offered x hx
      exact ⟨n, met.of_guardsStart hr more, offers⟩
  paths := by
    intro set member
    obtain ⟨n, met⟩ := h.paths set member
    exact ⟨n, met.of_guardsStart hr more⟩

/-! ## Requests with their own evaluators -/

namespace Engine

/-- A request to an engine with an evaluator that always answers, if it has one. -/
structure Question where
  stream : TokenStream
  caret : Int
  context : RuleContext
  answer : Option (PredicateCall → Bool)

namespace Question

def answers (q : Question) : Option (PredicateCall → Except Reason Bool) :=
  q.answer.map fun answer call => .ok (answer call)

def evaluator (q : Question) : Option Evaluator := q.answers.map Evaluator.pure

def Affirms (q : Question) (call : PredicateCall) : Prop := Evaluator.Affirms q.answers call

def collect (q : Question) (engine : Engine) (cache : Cache) : Collected :=
  engine.collect cache q.stream q.caret q.context q.evaluator

theorem confirms (q : Question) : Confirms q.evaluator q.Affirms :=
  Evaluator.confirms_pure q.answers

end Question

def cacheAfter (engine : Engine) (asked : List Question) : Cache :=
  asked.foldl (fun cache q => (q.collect engine cache).cache) {}

variable {engine : Engine}

def FoundBy (engine : Engine) (asked : List Question) (r : Rule) (sets : FollowSets) : Prop :=
  ∃ q ∈ asked, ∃ before,
    (FollowSets.ofRule engine.automaton engine.ignored q.evaluator before r).result = .ok sets

theorem Question.finds {asked : List Question} {q : Question} (member : q ∈ asked)
    (window : Array Token) : Request.Finds ⟨engine, window, q.evaluator⟩ (engine.FoundBy asked) :=
  fun before _ _ found => ⟨q, member, before, found⟩

theorem keeps_cacheAfter (assembled : engine.automaton.Assembled) (asked : List Question) :
    (engine.cacheAfter asked).Keeps engine.automaton engine.identity (engine.FoundBy asked) := by
  have served : ∀ (some : List Question) (cache : Cache), (∀ q ∈ some, q ∈ asked) →
      cache.Keeps engine.automaton engine.identity (engine.FoundBy asked) →
      (some.foldl (fun cache q => (q.collect engine cache).cache) cache).Keeps engine.automaton
        engine.identity (engine.FoundBy asked) := by
    intro some
    induction some with
    | nil => exact fun cache _ kept => kept
    | cons q rest ih =>
      intro cache members kept
      rw [List.forall_mem_cons] at members
      exact ih _ members.2 (keeps_collect assembled.rulesInPlace (q.finds members.1) kept _ _ _)
  exact served asked {} (fun _ => id) Cache.keeps_empty

/-- What a request can pass behind others: what it affirms itself, and at the caret the predicates at
the starts of rules that one of the others has affirmed. -/
def trustAfter (engine : Engine) (asked : List Question) (now : Question) : Trust where
  holds := now.Affirms
  atCaret call := now.Affirms call ∨
    engine.automaton.GuardsStart call ∧ ∃ q ∈ asked, q.Affirms call

theorem trusts_after (assembled : engine.automaton.Assembled)
    (stays : engine.automaton.StaysInRule) (positive : engine.automaton.PositiveLabels)
    (asked : List Question) (now : Question) (window : Array Token) :
    Request.Trusts ⟨engine, window, now.evaluator⟩ (engine.trustAfter asked now)
      (engine.FoundBy (now :: asked)) where
  inPlace := assembled.rulesInPlace
  stays := stays
  positive := positive
  confirms := now.confirms
  weaker _ := .inl
  finds := now.finds List.mem_cons_self window
  sound rule r sets hr found := by
    obtain ⟨q, member, before, found⟩ := found
    have sound := FollowSets.ofRule_sound hr assembled.rulesInPlace stays q.confirms found
    refine sound.of_guardsStart hr fun call guards affirmed => ?_
    rcases List.mem_cons.mp member with rfl | member
    · exact .inl affirmed
    · exact .inr ⟨guards, q, member, affirmed⟩

/-- Whatever evaluators earlier requests had, a candidate token is offered where a run over the tokens
before the caret can come to that passes only predicates which the evaluator affirms, but for those
behind the last of these tokens: there it may pass predicates at the starts of rules that an earlier
evaluator has affirmed. If the evaluator affirms these as well, it affirms all that the run passes. -/
theorem candidates_sound_after (assembled : engine.automaton.Assembled)
    (stays : engine.automaton.StaysInRule) (positive : engine.automaton.PositiveLabels)
    (asked : List Question) (now : Question) {candidates : Candidates}
    (h : (now.collect engine (engine.cacheAfter asked)).result = .ok candidates) {t : Symbol}
    (ht : t ∈ candidates.tokens) :
    ∃ (r : Rule) (window : List Token) (c : Config) (n : Nat) (stack : List Nat),
      engine.automaton.rule? now.context.rule = some r ∧
      now.stream.window now.context.start now.caret = .ok window ∧
      Run engine.automaton now.Affirms ⟨r.start, []⟩ (window.dropLast.map Token.symbol) c ∧
      Run engine.automaton (fun call => now.Affirms call ∨
        engine.automaton.GuardsStart call ∧ ∃ q ∈ asked, q.Affirms call) c [] ⟨n, stack⟩ ∧
      engine.automaton.Offers n t ∧
      ((∀ call, engine.automaton.GuardsStart call → (∃ q ∈ asked, q.Affirms call) →
          now.Affirms call) →
        Run engine.automaton now.Affirms ⟨r.start, []⟩ (window.dropLast.map Token.symbol)
          ⟨n, stack⟩) := by
  obtain ⟨r, window, ends, s, hr, hw, hs, tokens⟩ := enterRule_of_collect h
  have trusts := trusts_after assembled stays positive asked now window.toArray
  have kept : (engine.cacheAfter asked).Keeps engine.automaton engine.identity
      (engine.FoundBy (now :: asked)) := by
    intro rule r sets hr stored
    obtain ⟨q, member, found⟩ := keeps_cacheAfter assembled asked rule r sets hr stored
    exact ⟨q, List.mem_cons_of_mem _ member, found⟩
  have grounded := Request.grounded_of_enterRule trusts kept (rules_of_rule? hr) hs
  rw [tokens] at ht
  obtain ⟨-, -, n, stack, ⟨c, run, rest⟩, offers, -⟩ := grounded.tokens t ht
  have word : Request.word ⟨engine, window.toArray, now.evaluator⟩ =
      window.dropLast.map Token.symbol := by simp [Request.word]
  rw [word] at run
  refine ⟨r, window, c, n, stack, hr, hw, run, rest, offers, fun agreed => ?_⟩
  have affirmed : ∀ call, (engine.trustAfter asked now).atCaret call → now.Affirms call := by
    rintro call (affirmed | ⟨guards, earlier⟩)
    · exact affirmed
    · exact agreed call guards earlier
  have whole := run.trans (rest.mono affirmed)
  rwa [List.append_nil] at whole

/-- Any number of tokens of the third type, and then one of the second type or, behind a predicate,
one of the first. -/
def choice : Engine where
  automaton := (((((((Automaton.empty.addRule "Root").addState 0 .basic).addState 0 .basic).connect 0
    (.atom 0 3)).connect 0 (.predicate 2 0 0)).connect 2 (.atom 3 1)).connect 0 (.atom 3 2)).connect 3
    (.epsilon 1)
  identity := .automaton 0
  preferred := []
  ignored := []

/-- A request behind tokens of some types that affirms or denies all predicates. -/
def ask (types : List Symbol) (answer : Bool) : Question where
  stream := .ofTokens (types.map fun x => { symbol := x })
  caret := types.length
  context := {}
  answer := some fun _ => answer

theorem choice_transitions (n : Nat) :
    choice.automaton.transitionsAt n =
      [[.atom 0 3, .predicate 2 0 0, .atom 3 2], [], [.atom 3 1], [.epsilon 1]][n]?.getD [] :=
  transitionsAt_eq_of_map rfl n

/-- Behind a token of the third type the predicate is asked for again, so only what is not guarded
can follow. -/
theorem candidates_sound_after_choice :
    ∃ candidates c n stack,
      ((ask [3] false).collect choice (choice.cacheAfter [ask [] true])).result = .ok candidates ∧
      candidates.tokens.keys = [2, 3] ∧
      Run choice.automaton (ask [3] false).Affirms ⟨0, []⟩ [3] c ∧
      Run choice.automaton (fun call => (ask [3] false).Affirms call ∨
        choice.automaton.GuardsStart call ∧ ∃ q ∈ [ask [] true], q.Affirms call) c [] ⟨n, stack⟩ ∧
      choice.automaton.Offers n 2 := by
  have assembled : choice.automaton.Assembled := by
    simp only [choice]
    exact .connect (.connect (.connect (.connect (.connect (.addState (.addState (.addRule .empty _)
      _ _) _ _) _ _) _ _) _ _) _ _) _ _
  have stays : choice.automaton.StaysInRule := by
    intro n s hs t ht
    have inside : ∀ s ∈ choice.automaton.states.toList, ∀ t ∈ s.transitions,
        choice.automaton.states[t.next]?.map State.rule = some s.rule := by decide
    simpa using inside s (Array.mem_toList_iff.mpr (Array.mem_of_getElem? hs)) t ht
  have positive : choice.automaton.PositiveLabels := by
    intro n t ht
    rw [choice_transitions] at ht
    match n with
    | 0 | 1 | 2 | 3 | n + 4 => simp at ht <;> rcases ht with rfl | rfl | rfl <;> simp <;> decide
  obtain ⟨candidates, h, keys⟩ := exists_ok_of_toOption (show
      ((ask [3] false).collect choice (choice.cacheAfter [ask [] true])).result.toOption.map
        (fun c => c.tokens.keys) = some [2, 3] by decide +kernel)
  obtain ⟨window', hw', word⟩ := exists_ok_of_toOption (show
      ((ask [3] false).stream.window 0 1).toOption.map
        (fun window => window.dropLast.map Token.symbol) = some [3] by decide +kernel)
  have offered : 2 ∈ candidates.tokens := by
    rw [← Std.TreeMap.mem_keys, keys]
    exact List.mem_cons_self
  obtain ⟨r, window, c, n, stack, hr, hw, run, rest, offers, -⟩ :=
    candidates_sound_after assembled stays positive [ask [] true] (ask [3] false) h offered
  cases hw'.symm.trans hw
  cases hr
  exact ⟨candidates, c, n, stack, h, keys, word ▸ run, rest, offers⟩

/-- After a request that has affirmed the predicate, one that denies it is still offered the token
behind it, though no run comes there. -/
theorem denied_predicate_is_passed :
    ∃ candidates,
      ((ask [] false).collect choice (choice.cacheAfter [ask [] true])).result = .ok candidates ∧
      1 ∈ candidates.tokens ∧
      ¬ ∃ (r : Rule) (window : List Token) (n : Nat) (stack : List Nat),
        choice.automaton.rule? (ask [] false).context.rule = some r ∧
        (ask [] false).stream.window (ask [] false).context.start (ask [] false).caret = .ok window ∧
        Run choice.automaton (ask [] false).Affirms ⟨r.start, []⟩ (window.dropLast.map Token.symbol)
          ⟨n, stack⟩ ∧
        choice.automaton.Offers n 1 := by
  obtain ⟨candidates, h, keys⟩ := exists_ok_of_toOption (show
      ((ask [] false).collect choice (choice.cacheAfter [ask [] true])).result.toOption.map
        (fun c => c.tokens.keys) = some [1, 2, 3] by decide +kernel)
  obtain ⟨window', hw', word⟩ := exists_ok_of_toOption (show
      ((ask [] false).stream.window 0 0).toOption.map
        (fun window => window.dropLast.map Token.symbol) = some [] by decide +kernel)
  have offered : 1 ∈ candidates.tokens := by
    rw [← Std.TreeMap.mem_keys, keys]
    exact List.mem_cons_self
  refine ⟨candidates, h, offered, ?_⟩
  rintro ⟨r, window, n, stack, hr, hw, run, t, ht, label, hl, hx⟩
  cases hw'.symm.trans hw
  cases hr
  -- Nothing but the predicate leads on from the start without a token.
  have stuck : ∀ {c : Config} {u : List Symbol}, Run choice.automaton (ask [] false).Affirms
      ⟨0, []⟩ u c → u = [] → c = ⟨0, []⟩ := by
    intro c u run silent
    cases run with
    | refl => rfl
    | step hs _ =>
      obtain ⟨rfl, rfl⟩ := List.append_eq_nil_iff.mp silent
      cases hs with
      | move hm =>
        cases hm with
        | epsilon ht => simp [choice_transitions] at ht
        | predicate ht hp => cases hp _ rfl
      | call hc => simp [choice_transitions] at hc
  cases stuck run word
  have direct : t = .atom 0 3 ∨ t = .predicate 2 0 0 ∨ t = .atom 3 2 := by
    simpa [choice_transitions] using ht
  rcases direct with rfl | rfl | rfl
  · cases hl
    exact absurd (IntervalSet.mem_singleton.mp hx) (by decide)
  · cases hl
  · cases hl
    exact absurd (IntervalSet.mem_singleton.mp hx) (by decide)

end Engine

end GrammarCompletion
