import GrammarCompletion.Proofs.Completion.InRange
import GrammarCompletion.Proofs.Completion.Independence
import GrammarCompletion.Proofs.Language.Caret

/-!
# Requests to a language

A language that was accepted has an automaton without predicates that starts with a rule, and its
lexer ends every text with the only end of input. So every request at an offset of a text is a search
from the first rule through a window that ends at the caret, and it is answered whatever the evaluator
does.
-/

namespace GrammarCompletion

namespace Language

/-- The language was made of a definition and a source whose token types fit 64 bits. -/
def Accepted (l : Language) : Prop :=
  ∃ definition source, make definition source = .ok l ∧ source.length < 2 ^ 63

def tokens (l : Language) (text : Bytes) : List Token :=
  ((l.grammar.lexer l.name).tokenize text).1

variable {l : Language}

theorem parsed_of_make {definition : Definition} {source : Bytes} (made : make definition source = .ok l) :
    Grammar.parse definition.grammar source definition.start definition.skip = .ok l.grammar ∧
      l.engine.automaton = l.grammar.automaton := by
  unfold make at made
  simp only [bind, Except.bind] at made
  cases parsed : Grammar.parse definition.grammar source definition.start definition.skip with
  | error e => simp [parsed, Except.mapError] at made
  | ok g =>
    simp only [parsed, Except.mapError] at made
    cases preferred : definition.preferred.mapM (ruleIndex g) with
    | error e => simp [preferred] at made
    | ok rules =>
      cases ignored : definition.ignored.mapM (tokenType g) with
      | error e => simp [preferred, ignored] at made
      | ok symbols =>
        simp only [preferred, ignored, pure, Except.pure, Except.ok.injEq] at made
        subst made
        exact ⟨rfl, rfl⟩

theorem Accepted.parsed (h : l.Accepted) :
    ∃ name text start skip, Grammar.parse name text start skip = .ok l.grammar ∧
      text.length < 2 ^ 63 ∧ l.engine.automaton = l.grammar.automaton := by
  obtain ⟨definition, source, made, small⟩ := h
  have ⟨parsed, automaton⟩ := parsed_of_make made
  exact ⟨_, source, _, _, parsed, small, automaton⟩

theorem Accepted.assembled (h : l.Accepted) : l.engine.automaton.Assembled := by
  obtain ⟨name, text, start, skip, parsed, -, automaton⟩ := h.parsed
  rw [automaton]
  exact (Grammar.filled parsed).assembled

theorem Accepted.unguarded (h : l.Accepted) : l.engine.automaton.Unguarded := by
  obtain ⟨name, text, start, skip, parsed, -, automaton⟩ := h.parsed
  rw [automaton]
  exact fun n target rule index ht => (Grammar.filled parsed).plain n _ ht

theorem Accepted.typed (h : l.Accepted) : l.engine.automaton.Typed := by
  obtain ⟨name, text, start, skip, parsed, small, automaton⟩ := h.parsed
  rw [automaton]
  intro n x offers
  obtain ⟨target, ht⟩ := Automaton.atom_of_offers (Grammar.filled parsed).plain offers
  obtain ⟨i, hi, rfl⟩ := (Grammar.filled parsed).emitted n _ ht
  have count := Grammar.length_entries_lt parsed small
  constructor
  · exact (TokenTable.symbolAt_bounds hi count).1
  · exact Int64.le_trans (TokenTable.symbolAt_le_maxSymbol hi count) (Grammar.maxSymbol_le parsed)

theorem Accepted.exists_rule (h : l.Accepted) : ∃ r, l.engine.automaton.rule? 0 = some r := by
  obtain ⟨name, text, start, skip, parsed, -, automaton⟩ := h.parsed
  rw [automaton]
  exact Grammar.exists_rule_zero parsed

theorem Accepted.smallLabels (h : l.Accepted) : l.engine.automaton.SmallLabels := by
  obtain ⟨name, text, start, skip, parsed, small, automaton⟩ := h.parsed
  rw [automaton]
  exact Grammar.smallLabels parsed small

theorem Accepted.listableLabels (h : l.Accepted) : l.engine.automaton.ListableLabels := by
  obtain ⟨name, text, start, skip, parsed, -, automaton⟩ := h.parsed
  rw [automaton]
  exact Automaton.listableLabels_of_plain (Grammar.filled parsed).plain

theorem Accepted.tokenized (h : l.Accepted) (text : Bytes) : Tokenized text (l.tokens text) := by
  obtain ⟨name, source, start, skip, parsed, small, -⟩ := h.parsed
  apply Lexer.tokenized
  intro rule member
  rw [Grammar.lexer, Lexer.mem_rules_make, TokenTable.lexRules, List.mem_mapIdx] at member
  obtain ⟨i, inside, rfl⟩ := member
  have bounds := TokenTable.symbolAt_bounds inside (Grammar.length_entries_lt parsed small)
  intro isEnd
  have reserved : Symbol.firstUser ≤ Symbol.endOfInput := isEnd ▸ bounds.1
  exact absurd reserved (by decide)

/-! ## Searches -/

def request (l : Language) (before : List Token) (caret : Token) : Request :=
  ⟨l.engine, (before ++ [caret]).toArray, none⟩

/-- What is stored for the rules of a language stems from its automaton. -/
def Keeps (l : Language) (cache : Cache) : Prop :=
  cache.Keeps l.engine.automaton l.engine.identity
    fun _ => FollowSets.Stem l.engine.automaton l.engine.ignored

def answer (l : Language) (offset : Int) (caret : Token) (s : Session) : Completion :=
  let candidates := { s.candidates with statesProcessed := s.statesProcessed }
  { language := l.name
    offset := offset
    caret := caret
    candidates := candidates
    proposals := l.proposals candidates
    vocabulary := l.grammar.vocabulary
    ruleNames := l.grammar.automaton.ruleNames }

/-- At an offset of the text, a request is the search for the caret there, whatever the evaluator. -/
theorem Accepted.complete_eq (h : l.Accepted) {text : Bytes} {offset : Int}
    (valid : 0 ≤ offset ∧ offset ≤ text.length) :
    ∃ before caret after, IsCaret (l.tokens text) offset caret ∧
      CaretSplit (l.tokens text) offset before caret after ∧
      ∀ cache evaluator ends s,
        (l.request before caret).enterRule [] 0 0 { cache := cache } = .ok ends s →
        l.complete cache text offset evaluator = ⟨.ok (l.answer offset caret s), s.cache⟩ := by
  obtain ⟨caret, chosen⟩ : ∃ caret, caretToken (TokenStream.ofTokens (l.tokens text)) offset = caret :=
    ⟨_, rfl⟩
  have isCaret : IsCaret (l.tokens text) offset caret :=
    chosen ▸ (h.tokenized text).isCaret_caretToken valid.2
  obtain ⟨before, after, split, window⟩ := (h.tokenized text).exists_caretSplit isCaret
  obtain ⟨r, hr⟩ := h.exists_rule
  refine ⟨before, caret, after, isCaret, split, fun cache evaluator ends s hs => ?_⟩
  have same : Request.SameBefore ⟨l.engine, (before ++ [caret]).toArray, evaluator⟩
      (l.request before caret) := ⟨rfl, h.unguarded, rfl, fun _ _ => rfl⟩
  rw [← same.enterRule] at hs
  have collected : l.engine.collect cache (TokenStream.ofTokens (l.tokens text)) caret.index {}
      evaluator = _ := Engine.collect_of_enterRule hr window hs
  unfold complete
  rw [if_neg (by omega)]
  unfold tokens at collected chosen
  simp only [chosen, collected]
  rfl

theorem Accepted.search (h : l.Accepted) {cache : Cache} (hc : l.Keeps cache)
    (before : List Token) (caret : Token) :
    ∃ ends s, (l.request before caret).enterRule [] 0 0 { cache := cache } = .ok ends s ∧
      s.candidates.Within l.engine.automaton ∧ l.Keeps s.cache :=
  Request.enterRule_within (q := l.request before caret) h.typed h.assembled.rulesInPlace
    h.listableLabels unfailing_none hc 0 0

/-! ## Histories -/

structure Inquiry where
  text : Bytes
  offset : Int
  evaluator : Option Evaluator

def cacheAfter (l : Language) (served : List Inquiry) : Cache :=
  served.foldl (fun cache i => (l.complete cache i.text i.offset i.evaluator).cache) {}

theorem complete_of_outside (cache : Cache) {text : Bytes} {offset : Int}
    (outside : offset < 0 ∨ (text.length : Int) < offset) (evaluator : Option Evaluator) :
    l.complete cache text offset evaluator =
      ⟨.error (.offsetOutside offset text.length), cache⟩ := by
  unfold complete
  rw [if_pos outside]

theorem Accepted.cacheAfter_induction (h : l.Accepted) {P : Cache → Prop} (empty : P {})
    (step : ∀ cache before caret, P cache → ∃ ends s,
      (l.request before caret).enterRule [] 0 0 { cache := cache } = .ok ends s ∧ P s.cache)
    (served : List Inquiry) : P (l.cacheAfter served) := by
  unfold cacheAfter
  generalize ({} : Cache) = cache at empty
  induction served generalizing cache with
  | nil => exact empty
  | cons i served ih =>
    apply ih
    show P (l.complete cache i.text i.offset i.evaluator).cache
    by_cases outside : i.offset < 0 ∨ (i.text.length : Int) < i.offset
    · rw [complete_of_outside cache outside]
      exact empty
    · have valid : 0 ≤ i.offset ∧ i.offset ≤ i.text.length := by omega
      obtain ⟨before, caret, after, -, -, answers⟩ := h.complete_eq valid
      obtain ⟨ends, s, hs, kept⟩ := step cache before caret empty
      rw [answers cache i.evaluator ends s hs]
      exact kept

/-- Sums of digits with blanks between. -/
def sums : Definition where
  name := "sums"
  grammar := "sums"
  start := "Sum"
  skip := ["BLANK"]
  extensions := [".sum"]

def sumsSource : Bytes :=
  "Sum = NUMBER \x7b \"+\" NUMBER \x7d . NUMBER = \"0\" … \"9\" . BLANK = \" \" ."

end Language

end GrammarCompletion
