import GrammarCompletion.Proofs.Completion.Exactness

/-!
# Where a rule can end

A rule that enters itself is walked over and over, each time with the ends of the round before as
its seed, and what inner rules were found to end at is forgotten between the rounds. What is left
when the outermost rule is done rests on no seed: the ends it gives back are all positions at which
a run through the rule can come out, and no others.
-/

namespace GrammarCompletion

open Automaton

namespace Request

variable {q : Request} {cache : Cache} {rule : Nat} {r : Rule} {ends : List Nat} {s s' : Session}

theorem reads_take {j : Nat} (h : j ≤ q.word.length) : q.Reads 0 (q.word.take j) j :=
  ⟨(List.take_append_drop j q.word).symm, Nat.zero_le j, h⟩

theorem Reads.eq_take {j : Nat} {u : List Symbol} (h : q.Reads 0 u j) : u = q.word.take j := by
  have length : u.length = j := by simpa using h.length
  have whole : q.word = u ++ q.word.drop j := h.1
  rw [whole, ← length, List.take_left]

/-- A rule is not walked at the caret, but its end there is not missed. -/
theorem Thorough.mem_ends_caret (hq : q.Thorough) {e : RuleEntry}
    (hr : q.engine.automaton.rules[e.rule]? = some r) (hc : q.atCaret e.index = true)
    (hs : q.Knows [] s) (memo : s.memo = [])
    (h : q.enterRule [] e.rule e.index s = .ok ends s')
    (path : Path q.engine.automaton (fun _ => True) r.start [] r.stop) : e.index ∈ ends := by
  let Pre (frames : List Frame) (e' : RuleEntry) (s : Session) : Prop :=
    frames = [] ∧ e' = e ∧ q.Knows [] s ∧ s.memo = []
  refine (enterRule_yields Pre (fun _ _ _ ends _ => e.index ∈ ends) hq.wellFormed.inPlace
    (finds_surveyed (Survey.confirms_true _)) q.permits_all (.inl trivial)
    (fun _ _ _ h => h.2.2.1.cache) ?_ ?_ (show Pre [] e s from ⟨rfl, rfl, hs, memo⟩)).of_ok h
  · rintro _ _ s ends s' ⟨rfl, rfl, -, memo⟩ he
    cases he with
    | known hm => simp [memo] at hm
    | again _ hf => cases hf
    | missing hr' => cases hr.symm.trans hr'
    | caret hr' _ _ hsets =>
      cases hr.symm.trans hr'
      obtain ⟨complete, contains⟩ := hq.followSets hr hsets
      have canEnd := (contains _).mpr (complete.ends path)
      simp [FollowSets.canEnd, canEnd]
    | pruned _ before => cases hc.symm.trans before
  · rintro _ _ s r cache asked ⟨rfl, rfl, -, -⟩ _ _ _ before
    cases hc.symm.trans before

theorem Thorough.mem_ends_iff (hq : q.Thorough)
    (hc : cache.Faithful q.engine.automaton q.engine.identity (fun _ => True))
    (hr : q.engine.automaton.rules[rule]? = some r) :
    ∃ ends s, q.enterRule [] rule 0 { cache := cache } = .ok ends s ∧
      ∀ j, j ∈ ends ↔ j ≤ q.word.length ∧
        Run q.engine.automaton (fun _ => True) ⟨r.start, []⟩ (q.word.take j) ⟨r.stop, []⟩ := by
  have knows : q.Knows [] { cache := cache } := ⟨hc, by simp, by simp⟩
  obtain ⟨ends, s, hs, complete⟩ := (enterRule_notes (e := ⟨rule, 0⟩) hq
    (fun _ _ _ _ _ _ _ _ => trivial) ⟨knows, Nat.zero_le _, fun _ _ => trivial⟩).exists_ok
  obtain ⟨state, found, kind, -⟩ := state_of_shape? (hq.wellFormed.inPlace rule r hr).2
  have isStop : q.engine.automaton.IsStop r.stop := ⟨state, found, kind⟩
  refine ⟨ends, s, hs, fun j => ⟨fun hj => ?_, ?_⟩⟩
  · obtain ⟨r', n, hr', hn, passes⟩ := complete.real j hj
    cases hr.symm.trans hr'
    obtain ⟨u, run, reads⟩ := Trail.run (fun _ => id) passes
    rw [← reads.eq_take, ← hq.wellFormed.eq_stop hr (run_iff_path.mp run) hn]
    exact ⟨passes.le, run⟩
  · rintro ⟨inside, run⟩
    have path := run_iff_path.mp run
    have reads := reads_take inside
    by_cases nonempty : 0 < q.window.size
    · exact complete.answered.mem_ends hq complete.knows nonempty hr path isStop reads
        fun V ends explored hstart => explored.path hq complete.knows nonempty path hstart reads
    · -- Without any token the only position is the first one, and it is that of the caret.
      have first : q.atCaret 0 = true := by
        rw [atCaret_iff, length_word]
        omega
      have here : j = 0 := by
        rw [length_word] at inside
        omega
      subst here
      exact hq.mem_ends_caret (e := ⟨rule, 0⟩) hr first knows rfl hs path

end Request

namespace Grammar

variable {name text start : Bytes} {skip : List Bytes} {g : Grammar}

/-- With a grammar in which no rule both ends and enters itself again without input, a rule that is
entered at the first token of a window gives back exactly the positions, up to that of the last
token, that a run from its start to its stop over the tokens before can come out at. This holds of
rules that start with themselves, directly or by way of others, and whatever else is asked for. -/
theorem ends_iff_run (h : parse name text start skip = .ok g) (small : text.length < 2 ^ 63)
    (tame : ∀ rule, g.automaton.Nullable (fun _ => True) rule →
      ¬ g.automaton.Reenters (fun _ => True) rule)
    {engine : Engine} (ha : engine.automaton = g.automaton) {cache : Cache}
    (hc : cache.Faithful g.automaton engine.identity (fun _ => True)) {rule : Nat} {r : Rule}
    (hr : g.automaton.rules[rule]? = some r) (window : Array Token) :
    ∃ ends s, Request.enterRule ⟨engine, window, none⟩ [] rule 0 { cache := cache } = .ok ends s ∧
      ∀ j, j ∈ ends ↔ j ≤ window.size - 1 ∧
        Run g.automaton (fun _ => True) ⟨r.start, []⟩ ((window.toList.take j).map Token.symbol)
          ⟨r.stop, []⟩ := by
  have thorough := thorough h small tame ha window
  rw [← ha] at hc hr ⊢
  obtain ⟨ends, s, hs, positions⟩ := thorough.mem_ends_iff hc hr
  refine ⟨ends, s, hs, fun j => ?_⟩
  rw [positions, Request.length_word]
  refine and_congr_right fun inside => ?_
  rw [Request.word, List.dropLast_eq_take, ← List.map_take, List.take_take, Array.length_toList,
    Nat.min_eq_left inside]

/-- Two rules of which each starts with the other. -/
def alternating : Bytes := "Aa = Bb \"x\" | \"y\" . Bb = Aa \"z\" | \"w\" ."

theorem alternating_not_nullable (h : parse "g" alternating "Aa" [] = .ok g) (rule : Nat) :
    ¬ g.automaton.Nullable (fun _ => True) rule := by
  have outline : (parse "g" alternating "Aa" []).toOption.map (fun g =>
      (g.automaton.states.toList.map State.transitions,
        g.automaton.states.toList.map State.kind, g.automaton.rules.toList.map Rule.start)) =
      some ([[.epsilon 4], [], [.epsilon 12], [], [.epsilon 6, .epsilon 10], [.epsilon 1],
        [.call 1 7], [.epsilon 8], [.atom 9 1], [.epsilon 5], [.atom 11 2], [.epsilon 5],
        [.epsilon 14, .epsilon 18], [.epsilon 3], [.call 0 15], [.epsilon 16], [.atom 17 3],
        [.epsilon 13], [.atom 19 4], [.epsilon 13]],
        [.ruleStart, .ruleStop, .ruleStart, .ruleStop, .blockStart, .blockEnd, .basic, .basic,
          .basic, .basic, .basic, .basic, .blockStart, .blockEnd, .basic, .basic, .basic, .basic,
          .basic, .basic], [0, 2]) := by
    decide +kernel
  simp only [h, Except.toOption, Option.map_some, Option.some.injEq, Prod.mk.injEq] at outline
  obtain ⟨transitions, kinds, starts⟩ := outline
  have out := transitionsAt_eq_of_map transitions
  have start : ∀ (rule : Nat) (r : Rule), g.automaton.rules[rule]? = some r →
      r.start ∈ [0, 2, 4, 6, 10, 12, 14, 18] := by
    intro rule r hr
    have hm : r.start ∈ g.automaton.rules.toList.map Rule.start :=
      List.mem_map_of_mem (Array.mem_toList_iff.mpr (Array.mem_of_getElem? hr))
    rw [starts] at hm
    exact List.mem_append_left [4, 6, 10, 12, 14, 18] hm
  refine not_nullable_of_trap [0, 2, 4, 6, 10, 12, 14, 18] ?_ ?_ (start rule)
  · simp only [isStop_iff_of_map kinds]
    decide
  · simp only [out, List.forall_mem_cons]
    simpa using And.intro (fun r hr => by simpa using start 1 r hr)
      fun r hr => by simpa using start 0 r hr

/-- The first rule ends behind every second token: the round that starts from the end behind the
first one finds the next, and so on. -/
theorem ends_iff_run_alternating :
    ∃ (g : Grammar) (r : Rule), parse "g" alternating "Aa" [] = .ok g ∧
      g.automaton.rules[0]? = some r ∧
      Run g.automaton (fun _ => True) ⟨r.start, []⟩ [2, 3, 1, 3, 1] ⟨r.stop, []⟩ ∧
      ¬ Run g.automaton (fun _ => True) ⟨r.start, []⟩ [2, 3, 1, 3] ⟨r.stop, []⟩ := by
  let window : Array Token := #[{ symbol := 2 }, { symbol := 3 }, { symbol := 1 }, { symbol := 3 },
    { symbol := 1 }, { symbol := 1 }]
  have answered : (parse "g" alternating "Aa" []).toOption.map (fun g =>
      (g.automaton.rules[0]?.isSome,
        EStateM.run' (Request.enterRule ⟨⟨g.automaton, .automaton 0, [], []⟩, window, none⟩ [] 0 0)
          { cache := {} })) = some (true, some [1, 3, 5]) := by
    decide +kernel
  obtain ⟨g, h, found⟩ := exists_ok_of_toOption answered
  simp only [Prod.mk.injEq, Option.isSome_iff_exists] at found
  obtain ⟨⟨r, hr⟩, ends⟩ := found
  have automaton : Engine.automaton ⟨g.automaton, .automaton 0, [], []⟩ = g.automaton := rfl
  obtain ⟨s, hs⟩ := Search.exists_ok_of_run' ends
  obtain ⟨ends, s', hs', positions⟩ := ends_iff_run h (by decide +kernel)
    (fun rule nullable => absurd nullable (alternating_not_nullable h rule)) automaton
    Cache.faithful_empty hr window
  cases hs.symm.trans hs'
  exact ⟨g, r, h, hr, ((positions 5).mp (by decide)).2,
    fun run => absurd ((positions 4).mpr ⟨by decide, run⟩) (by decide)⟩

end Grammar

end GrammarCompletion
