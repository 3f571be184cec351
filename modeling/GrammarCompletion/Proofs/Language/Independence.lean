import GrammarCompletion.Proofs.Language.Accepted

/-!
# What an answer depends on

Two requests to a language whose visible tokens before the caret have the same types are answered by
the same search. Neither the token at the caret nor anything behind it, hidden or not, is looked at,
and what was asked before only fills the cache with what the search would find anyway.
-/

namespace GrammarCompletion.Language

variable {l : Language}

/-- A request that stands for all requests to the engine of a language. -/
def anyCall (l : Language) : Engine.Call := ⟨l.engine, TokenStream.ofTokens [], 0, {}⟩

/-- The follow sets that belong into the cache of a language. -/
def Truth (l : Language) : CacheKey → FollowSets → Prop := Engine.Call.Truth [l.anyCall] none

theorem Accepted.reliable (h : l.Accepted) (before : List Token) (caret : Token) :
    (l.request before caret).Reliable l.Truth := by
  have compatible : Engine.Call.Compatible [l.anyCall] := by
    constructor
    · simpa [anyCall] using h.assembled
    · simp
  exact compatible.reliable (fun _ => ⟨true, fun _ => rfl⟩) List.mem_cons_self _

structure Filled (l : Language) (cache : Cache) : Prop where
  kept : l.Keeps cache
  truthful : cache.Truthful l.Truth

theorem filled_empty : l.Filled {} := ⟨Cache.keeps_empty, Cache.truthful_empty⟩

/-- A search gives the same with any two caches that requests have filled. -/
theorem Accepted.searchBeside (h : l.Accepted) {cache cache' : Cache} (filled : l.Filled cache)
    (filled' : l.Filled cache') (before : List Token) (caret : Token) :
    ∃ ends s s', (l.request before caret).enterRule [] 0 0 { cache := cache } = .ok ends s ∧
      (l.request before caret).enterRule [] 0 0 { cache := cache' } = .ok ends s' ∧
      s.Alike s' ∧ l.Filled s.cache := by
  obtain ⟨ends, s, hs, -, kept⟩ := h.search filled.kept before caret
  obtain ⟨outcome, t, s', ht, hs', beside⟩ := (h.reliable before caret).enterRule [] 0 0
    { cache := cache } { cache := cache' } ⟨rfl, rfl, rfl, rfl⟩ filled.truthful filled'.truthful
  rw [hs] at ht
  cases outcome with
  | ok value =>
    cases ht
    exact ⟨ends, s, s', hs, hs', beside.alike, kept, beside.left⟩
  | error reason => cases ht

theorem Accepted.filled_cacheAfter (h : l.Accepted) (served : List Inquiry) :
    l.Filled (l.cacheAfter served) := by
  apply h.cacheAfter_induction
  · exact filled_empty
  · intro cache before caret filled
    obtain ⟨ends, s, -, hs, -, -, filled'⟩ := h.searchBeside filled filled before caret
    exact ⟨ends, s, hs, filled'⟩

theorem Accepted.result_cacheAfter (h : l.Accepted) (served : List Inquiry) (text : Bytes)
    (offset : Int) :
    (l.complete (l.cacheAfter served) text offset none).result =
      (l.complete {} text offset none).result := by
  by_cases outside : offset < 0 ∨ (text.length : Int) < offset
  · rw [complete_of_outside _ outside, complete_of_outside _ outside]
  · have valid : 0 ≤ offset ∧ offset ≤ text.length := by omega
    obtain ⟨before, caret, after, -, -, answers⟩ := h.complete_eq valid
    obtain ⟨ends, s, t, hs, ht, alike, -⟩ :=
      h.searchBeside (h.filled_cacheAfter served) filled_empty before caret
    rw [answers _ none ends s hs, answers _ none ends t ht]
    simp only [answer, alike.candidates, alike.statesProcessed]

theorem symbolAt_request {before : List Token} {caret : Token} {i : Nat}
    (passed : (l.request before caret).atCaret i = false) :
    (l.request before caret).symbolAt i = (before.map Token.symbol)[i]?.getD Symbol.endOfInput := by
  simp only [request, Request.atCaret] at passed
  have inside : i < before.length := by simpa using passed
  simp [request, Request.symbolAt, List.getElem?_append_left inside, inside]

theorem Accepted.sameBefore (h : l.Accepted) {before before' : List Token}
    (types : before.map Token.symbol = before'.map Token.symbol) (caret caret' : Token) :
    (l.request before caret).SameBefore (l.request before' caret') := by
  have size : (l.request before caret).window.size = (l.request before' caret').window.size := by
    have := congrArg List.length types
    simpa [request] using this
  refine ⟨rfl, h.unguarded, size, fun i passed => ?_⟩
  have passed' : (l.request before' caret').atCaret i = false := by
    unfold Request.atCaret at passed ⊢
    rw [← size]
    exact passed
  rw [symbolAt_request passed, symbolAt_request passed', types]

/-- Requests to a language that agree on the types of the visible tokens which end before the offset
have the same candidates and proposals. The texts, offsets and tokens at the caret may differ, and so
may what was asked before and by which evaluators. -/
theorem candidates_eq_of_typesBefore (h : l.Accepted) (served served' : List Inquiry)
    {text text' : Bytes} {offset offset' : Int} (valid : 0 ≤ offset ∧ offset ≤ text.length)
    (valid' : 0 ≤ offset' ∧ offset' ≤ text'.length)
    (types : typesBefore (l.tokens text) offset = typesBefore (l.tokens text') offset') :
    ∃ c c', (l.complete (l.cacheAfter served) text offset none).result = .ok c ∧
      (l.complete (l.cacheAfter served') text' offset' none).result = .ok c' ∧
      c.candidates = c'.candidates ∧ c.proposals = c'.proposals := by
  obtain ⟨before, caret, after, -, split, answers⟩ := h.complete_eq valid
  obtain ⟨before', caret', after', -, split', answers'⟩ := h.complete_eq valid'
  rw [split.typesBefore_eq, split'.typesBefore_eq] at types
  obtain ⟨ends, s, s', hs, hs', alike, -⟩ :=
    h.searchBeside (h.filled_cacheAfter served) (h.filled_cacheAfter served') before caret
  rw [(h.sameBefore types caret caret').enterRule] at hs'
  have candidates : (l.answer offset caret s).candidates = (l.answer offset' caret' s').candidates := by
    simp only [answer, alike.candidates, alike.statesProcessed]
  refine ⟨l.answer offset caret s, l.answer offset' caret' s', ?_, ?_, candidates, ?_⟩
  · rw [answers _ none ends s hs]
  · rw [answers' _ none ends s' hs']
  · exact congrArg l.proposals candidates

/-- Behind one number a plus is proposed, be it that a plus or that a number is there already. -/
theorem candidates_eq_of_typesBefore_sums :
    ∃ l : Language, l.Accepted ∧
      typesBefore (l.tokens "1+") 2 = typesBefore (l.tokens "7  9") 3 ∧
      ∃ c c', (l.complete (l.cacheAfter [⟨"1+1", 3, some fun _ _ => .error ⟨[], []⟩⟩]) "1+" 2 none).result =
          .ok c ∧
        (l.complete (l.cacheAfter []) "7  9" 3 none).result = .ok c' ∧
        c'.candidates.tokens.keys = [3] ∧ c.candidates = c'.candidates ∧
        c.proposals = c'.proposals := by
  have answered : (make sums sumsSource).toOption.map (fun l =>
      ((typesBefore (l.tokens "1+") 2, typesBefore (l.tokens "7  9") 3),
        (l.complete (l.cacheAfter []) "7  9" 3 none).result.toOption.map
          fun c => c.candidates.tokens.keys)) = some (([1], [1]), some [3]) := by
    decide +kernel
  obtain ⟨l, made, found⟩ := exists_ok_of_toOption answered
  simp only [Prod.mk.injEq] at found
  obtain ⟨⟨types, types'⟩, keys⟩ := found
  obtain ⟨c₀, result, keys⟩ := exists_ok_of_toOption keys
  have accepted : l.Accepted := ⟨sums, sumsSource, made, by decide +kernel⟩
  have valid : (0 : Int) ≤ 2 ∧ (2 : Int) ≤ ("1+" : Bytes).length := by decide
  have valid' : (0 : Int) ≤ 3 ∧ (3 : Int) ≤ ("7  9" : Bytes).length := by decide
  obtain ⟨c, c', first, second, candidates, proposals⟩ := candidates_eq_of_typesBefore accepted
    [⟨"1+1", 3, some fun _ _ => .error ⟨[], []⟩⟩] [] valid valid' (types.trans types'.symm)
  cases result.symm.trans second
  exact ⟨l, accepted, types.trans types'.symm, c, c₀, first, second, keys, candidates, proposals⟩

end GrammarCompletion.Language
