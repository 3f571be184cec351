import GrammarCompletion.Proofs.Language.Accepted

/-!
# Requests have answers

A request to an accepted language fails only if its offset lies outside of the text. Every other
request has an answer: its caret is the first visible token that the offset does not lie behind, and
its candidates name types and rules of the grammar. The search for them stays in the window and in
the automaton, also with what earlier requests have left in the cache.
-/

namespace GrammarCompletion

open Automaton

namespace Automaton

/-- No transition leads to a state or calls a rule that is not there, and rules have their ends. -/
structure Closed (a : Automaton) : Prop where
  start : ∀ (rule : Nat) (r : Rule), a.rules[rule]? = some r → r.start < a.states.size
  stop : ∀ (rule : Nat) (r : Rule), a.rules[rule]? = some r → r.stop < a.states.size
  next : ∀ n, ∀ t ∈ a.transitionsAt n, t.next < a.states.size
  call : ∀ n rule follow, .call rule follow ∈ a.transitionsAt n → rule < a.rules.size

end Automaton

theorem Grammar.closed {name text start : Bytes} {skip : List Bytes} {g : Grammar}
    (h : parse name text start skip = .ok g) : g.automaton.Closed := by
  have filled := filled h
  have inPlace := filled.assembled.rulesInPlace
  constructor
  · exact fun rule r hr => lt_size_of_shape? (inPlace rule r hr).1
  · exact fun rule r hr => lt_size_of_shape? (inPlace rule r hr).2
  · intro n t ht
    obtain ⟨s, hs⟩ : ∃ s, g.automaton.states[n]? = some s :=
      ⟨_, Array.getElem?_eq_getElem (lt_size_of_mem ht)⟩
    obtain ⟨kind, shape⟩ := filled.stays n s.kind s.rule (shape?_of_state hs) t ht
    exact lt_size_of_shape? shape
  · intro n rule follow ht
    have known : rule < (Compile.bindings g.source start g.table).rules.length :=
      filled.emitted n _ ht
    rw [Compile.bindings, List.length_map] at known
    have found := filled.rule_of_production (List.getElem?_eq_getElem known)
    exact (Array.getElem?_eq_some_iff.mp found).choose

/-- A search that ends stays in its window, and what it stores can be listed. -/
theorem Request.enterWithin_of_ok {q : Request} (inside : 0 < q.window.size)
    (small : q.engine.automaton.SmallLabels) {cache : Cache} (stored : cache.Small) {rule : Nat}
    {ends : List Nat} {s : Session} (hs : q.enterRule [] rule 0 { cache := cache } = .ok ends s) :
    (∀ cut, q.enterWithin cut (q.engine.automaton.rules.size * q.window.size) [] rule 0
      { cache := cache } = .ok ends s) ∧ s.cache.Small := by
  have safe : q.Safe { cache := cache } := ⟨stored, by simp⟩
  have agrees (cut : Search (List Nat)) :
      Agrees (q.enterWithin cut (q.engine.automaton.rules.size * q.window.size) [] rule 0)
        (q.enterRule [] rule 0) { cache := cache } q.EnterSafe :=
    enterWithin_agrees small (entriesLeft_le []) inside (by simp) safe
  constructor
  · intro cut
    obtain ⟨same, -⟩ := agrees cut
    exact same.trans hs
  · obtain ⟨-, yields⟩ := agrees (pure [])
    exact (yields.of_ok hs).1.cache

namespace Language

structure Answers (l : Language) (cache : Cache) (text : Bytes) (offset : Int) (c : Completion) :
    Prop where
  isCaret : IsCaret (l.tokens text) offset c.caret
  unique : ∀ t, IsCaret (l.tokens text) offset t → t = c.caret
  within : c.candidates.Within l.grammar.automaton
  -- the search that is cut where it leaves the window finds the candidates, however it is cut
  searched : ∃ before after ends s, CaretSplit (l.tokens text) offset before c.caret after ∧
    (∀ cut, (l.request before c.caret).enterWithin cut
      (l.grammar.automaton.rules.size * (before.length + 1)) [] 0 0 { cache := cache } = .ok ends s) ∧
    c = l.answer offset c.caret s

/-- Searches of the language stay in their window if they start with this cache. -/
def Safe (l : Language) (cache : Cache) : Prop := l.Keeps cache ∧ cache.Small

variable {l : Language}

theorem Accepted.closed (h : l.Accepted) : l.grammar.automaton.Closed := by
  obtain ⟨name, text, start, skip, parsed, -⟩ := h.parsed
  exact Grammar.closed parsed

theorem Accepted.automaton_eq (h : l.Accepted) : l.engine.automaton = l.grammar.automaton := by
  obtain ⟨name, text, start, skip, -, -, same⟩ := h.parsed
  exact same

/-- A search ends as it does when it is cut at the ends of its window. -/
theorem Accepted.searchWithin (h : l.Accepted) {cache : Cache} (safe : l.Safe cache)
    (before : List Token) (caret : Token) :
    ∃ ends s, (l.request before caret).enterRule [] 0 0 { cache := cache } = .ok ends s ∧
      (∀ cut, (l.request before caret).enterWithin cut
        (l.grammar.automaton.rules.size * (before.length + 1)) [] 0 0 { cache := cache } =
          .ok ends s) ∧
      s.candidates.Within l.grammar.automaton ∧ l.Safe s.cache := by
  obtain ⟨kept, small⟩ := safe
  obtain ⟨ends, s, hs, within, kept'⟩ := h.search kept before caret
  have size : (l.request before caret).window.size = before.length + 1 := by simp [request]
  have inside : 0 < (l.request before caret).window.size := by omega
  obtain ⟨cut, small'⟩ := Request.enterWithin_of_ok inside h.smallLabels small hs
  rw [size] at cut
  rw [← h.automaton_eq]
  exact ⟨ends, s, hs, cut, within, kept', small'⟩

theorem Accepted.safe_cacheAfter (h : l.Accepted) (served : List Inquiry) :
    l.Safe (l.cacheAfter served) := by
  apply h.cacheAfter_induction
  · exact ⟨Cache.keeps_empty, Cache.small_empty⟩
  · intro cache before caret safe
    obtain ⟨ends, s, hs, -, -, safe'⟩ := h.searchWithin safe before caret
    exact ⟨ends, s, hs, safe'⟩

theorem Accepted.exists_answer (h : l.Accepted) {cache : Cache} (safe : l.Safe cache) {text : Bytes}
    {offset : Int} (valid : 0 ≤ offset ∧ offset ≤ text.length) (evaluator : Option Evaluator) :
    ∃ c, (l.complete cache text offset evaluator).result = .ok c ∧
      l.Answers cache text offset c := by
  obtain ⟨before, caret, after, isCaret, split, answers⟩ := h.complete_eq valid
  obtain ⟨ends, s, hs, cut, within, -⟩ := h.searchWithin safe before caret
  refine ⟨l.answer offset caret s, by rw [answers cache evaluator ends s hs], ?_⟩
  constructor
  case isCaret => exact isCaret
  case unique =>
    intro t other
    exact Option.some.inj ((isCaret_iff.mp other).symm.trans (isCaret_iff.mp isCaret))
  case within =>
    constructor
    · exact within.tokens
    · exact within.rules
  case searched => exact ⟨before, after, ends, s, split, cut, rfl⟩

theorem Accepted.answers_of_ok (h : l.Accepted) {cache : Cache} (safe : l.Safe cache)
    {text : Bytes} {offset : Int} {evaluator : Option Evaluator} {c : Completion}
    (ok : (l.complete cache text offset evaluator).result = .ok c) :
    l.Answers cache text offset c := by
  by_cases outside : offset < 0 ∨ (text.length : Int) < offset
  · rw [complete_of_outside cache outside] at ok
    cases ok
  · have valid : 0 ≤ offset ∧ offset ≤ text.length := by omega
    obtain ⟨c', result, answers⟩ := h.exists_answer safe valid evaluator
    cases ok.symm.trans result
    exact answers

/-- A request fails for its offset only. -/
theorem Accepted.error_iff (h : l.Accepted) (served : List Inquiry) (text : Bytes) (offset : Int)
    (evaluator : Option Evaluator) (e : RequestError) :
    (l.complete (l.cacheAfter served) text offset evaluator).result = .error e ↔
      (offset < 0 ∨ (text.length : Int) < offset) ∧ e = .offsetOutside offset text.length := by
  by_cases outside : offset < 0 ∨ (text.length : Int) < offset
  · rw [complete_of_outside _ outside]
    simp only [Except.error.injEq, outside, true_and]
    exact eq_comm
  · have valid : 0 ≤ offset ∧ offset ≤ text.length := by omega
    obtain ⟨c, result, -⟩ := h.exists_answer (h.safe_cacheAfter served) valid evaluator
    simp [result, outside]

end Language

theorem RequestError.message_offsetOutside (offset : Int) (length : Nat) :
    ∃ reason, (RequestError.offsetOutside offset length).message = "invalid argument: " ++ reason := by
  have shared : ("invalid argument: offset " : Bytes) = "invalid argument: " ++ "offset " := by decide
  simp only [message, shared, List.append_assoc]
  exact ⟨_, rfl⟩

end GrammarCompletion
