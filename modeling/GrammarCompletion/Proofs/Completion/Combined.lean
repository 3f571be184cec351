import GrammarCompletion.Proofs.Grammar.Parsed

/-!
# The union of follow sets

The follow sets of a compiled rule, taken together, hold the token types with which a run from the
start of the rule can begin, and the mark of the end if the rule can be passed without input. They
hold nothing else; they hold all of it if no rule that is entered on the way both ends and enters
itself again without input.
-/

namespace GrammarCompletion

open Automaton

namespace FollowSets

theorem ofSets_spec {sets : List FollowSet} (h : ∀ set ∈ sets, set.symbols.Bounded) :
    (ofSets sets).combined.Canonical ∧
      ∀ x, x ∈ (ofSets sets).combined ↔ ∃ set ∈ sets, x ∈ set.symbols := by
  have fold : ∀ (sets : List FollowSet) (all : IntervalSet), all.Canonical →
      (∀ set ∈ sets, set.symbols.Bounded) →
      (sets.foldl (fun all set => all.union set.symbols) all).Canonical ∧
        ∀ x, x ∈ sets.foldl (fun all set => all.union set.symbols) all ↔
          x ∈ all ∨ ∃ set ∈ sets, x ∈ set.symbols := by
    intro sets
    induction sets with
    | nil => exact fun all ha _ => ⟨ha, by simp⟩
    | cons set sets ih =>
      intro all ha hs
      rw [List.forall_mem_cons] at hs
      have joined := IntervalSet.union_spec ha hs.1
      obtain ⟨canonical, member⟩ := ih _ joined.1 hs.2
      refine ⟨canonical, fun x => (member x).trans ?_⟩
      rw [joined.2 x, or_assoc]
      simp
  obtain ⟨canonical, member⟩ := fold sets _ IntervalSet.canonical_empty h
  exact ⟨canonical, fun x => (member x).trans (by simp)⟩

section
variable {a : Automaton} {holds : PredicateCall → Prop} {r : Rule} {sets : FollowSets}

theorem Sound.contains_iff (h : sets.Sound a holds r)
    (bounds : ∀ n x, a.Offers n x → Symbol.firstUser ≤ x ∧ x < Int64.maxValue) {x : Symbol} :
    sets.combined.contains x = true ↔ ∃ set ∈ sets.sets, x ∈ set.symbols := by
  have bounded : ∀ set ∈ sets.sets, set.symbols.Bounded := by
    intro set hset x hx
    rcases h.sets set hset with ⟨mark, -⟩ | offered
    · rw [mark, IntervalSet.mem_singleton] at hx
      subst hx
      decide
    · obtain ⟨n, -, hn⟩ := offered x hx
      have := bounds n x hn
      exact ⟨Int64.lt_of_lt_of_le (by decide) this.1, this.2⟩
  have spec := ofSets_spec bounded
  rw [← h.eq_ofSets] at spec
  rw [IntervalSet.contains_iff_mem spec.1, spec.2]

theorem Sound.run_of_mem (h : sets.Sound a holds r) {x : Symbol} (hx : x ≠ Symbol.nothing)
    (hm : ∃ set ∈ sets.sets, x ∈ set.symbols) : ∃ c, Run a holds ⟨r.start, []⟩ [x] c := by
  obtain ⟨set, hset, hm⟩ := hm
  rcases h.sets set hset with ⟨mark, -⟩ | offered
  · rw [mark, IntervalSet.mem_singleton] at hm
    exact absurd hm hx
  · obtain ⟨n, met, hn⟩ := offered x hm
    obtain ⟨stack, run⟩ := met.run
    obtain ⟨m, move⟩ := hn.move
    exact ⟨⟨m, stack⟩, run.trans (.single (.move move))⟩

end

end FollowSets

namespace Grammar

variable {name text start : Bytes} {skip : List Bytes} {g : Grammar}

/-- The union of the follow sets of a rule holds nothing but what can come first in a run from its
start, and the mark of the end only if the rule can be passed without input. Where no rule entered
on the way both ends and enters itself again without input, it holds all of that. -/
theorem combined_iff_first (h : parse name text start skip = .ok g) (small : text.length < 2 ^ 63)
    {rule : Nat} {r : Rule} (hr : g.automaton.rules[rule]? = some r) (ignored : List Symbol)
    (asked : List PredicateCall) :
    ∃ sets, (FollowSets.ofRule g.automaton ignored none asked r).result = .ok sets ∧
      (∀ t, t ≠ Symbol.nothing → sets.combined.contains t = true →
        ∃ c, Run g.automaton (fun _ => True) ⟨r.start, []⟩ [t] c) ∧
      (sets.combined.contains Symbol.nothing = true →
        Run g.automaton (fun _ => True) ⟨r.start, []⟩ [] ⟨r.stop, []⟩) ∧
      (Survey.Tame g.automaton r.start →
        (∀ t, t ≠ Symbol.nothing → (sets.combined.contains t = true ↔
          ∃ c, Run g.automaton (fun _ => True) ⟨r.start, []⟩ [t] c)) ∧
        (sets.combined.contains Symbol.nothing = true ↔
          Run g.automaton (fun _ => True) ⟨r.start, []⟩ [] ⟨r.stop, []⟩)) := by
  have wellFormed := (filled h).wellFormed
  obtain ⟨sets, hsets⟩ := FollowSets.ofRule_ok g.automaton ignored asked r
  have sound := FollowSets.ofRule_sound hr wellFormed.inPlace wellFormed.stays
    (Survey.confirms_true none) hsets
  have contains : ∀ x, sets.combined.contains x = true ↔ ∃ set ∈ sets.sets, x ∈ set.symbols :=
    fun x => sound.contains_iff fun n x hx => bounds_of_offers h small hx
  have first : ∀ t, t ≠ Symbol.nothing → sets.combined.contains t = true →
      ∃ c, Run g.automaton (fun _ => True) ⟨r.start, []⟩ [t] c :=
    fun t ht hc => sound.run_of_mem ht ((contains t).mp hc)
  have ends : sets.combined.contains Symbol.nothing = true →
      Run g.automaton (fun _ => True) ⟨r.start, []⟩ [] ⟨r.stop, []⟩ :=
    fun hc => run_iff_path.mpr (sound.path_of_canEnd (positiveLabels h small) hc)
  refine ⟨sets, hsets, first, ends, fun tame => ?_⟩
  have complete := FollowSets.ofRule_complete wellFormed hr tame Survey.affirming_none hsets
  refine ⟨fun t ht => ⟨first t ht, ?_⟩, ends, ?_⟩
  · rintro ⟨c, run⟩
    obtain ⟨n, m, stack, before, move, -⟩ := run.first
    exact (contains t).mpr (complete.offers before (offers_of_move (filled h).plain move))
  · intro run
    exact (contains Symbol.nothing).mpr (complete.ends (run_iff_path.mp run))

/-- Sums that start with a sum. -/
def leftSum : Bytes := "Ee = Ee \"+\" \"n\" | \"n\" ."

/-- No rule of sums can be passed without input, though the rule enters itself. -/
theorem leftSum_not_nullable (h : parse "g" leftSum "Ee" [] = .ok g) (rule : Nat) :
    ¬ g.automaton.Nullable (fun _ => True) rule := by
  have outline : (parse "g" leftSum "Ee" []).toOption.map (fun g =>
      (g.automaton.states.toList.map State.transitions,
        g.automaton.states.toList.map State.kind, g.automaton.rules.toList.map Rule.start)) =
      some ([[.epsilon 2], [], [.epsilon 4, .epsilon 10], [.epsilon 1], [.call 0 5], [.epsilon 6],
        [.atom 7 1], [.epsilon 8], [.atom 9 2], [.epsilon 3], [.atom 11 2], [.epsilon 3]],
        [.ruleStart, .ruleStop, .blockStart, .blockEnd, .basic, .basic, .basic, .basic, .basic,
          .basic, .basic, .basic], [0]) := by
    decide +kernel
  simp only [h, Except.toOption, Option.map_some, Option.some.injEq, Prod.mk.injEq] at outline
  obtain ⟨transitions, kinds, starts⟩ := outline
  have out := transitionsAt_eq_of_map transitions
  have stops := isStop_iff_of_map kinds
  have start : ∀ (rule : Nat) (r : Rule), g.automaton.rules[rule]? = some r → r.start = 0 := by
    intro rule r hr
    have hm : r.start ∈ g.automaton.rules.toList.map Rule.start :=
      List.mem_map_of_mem (Array.mem_toList_iff.mpr (Array.mem_of_getElem? hr))
    rwa [starts, List.mem_singleton] at hm
  refine not_nullable_of_trap [0, 2, 4, 10] ?_ ?_ ?_
  · simp [stops]
  · simp only [out, List.forall_mem_cons]
    simpa using fun r hr => .inl (start 0 r hr)
  · exact fun r hr => by simp [start rule r hr]

theorem combined_iff_first_leftSum :
    ∃ (g : Grammar) (r : Rule), parse "g" leftSum "Ee" [] = .ok g ∧
      g.automaton.rules[0]? = some r ∧ Survey.Tame g.automaton r.start ∧
      (∃ c, Run g.automaton (fun _ => True) ⟨r.start, []⟩ [2] c) ∧
      ¬ ∃ c, Run g.automaton (fun _ => True) ⟨r.start, []⟩ [1] c := by
  have survey : (parse "g" leftSum "Ee" []).toOption.map (fun g =>
      g.automaton.rules.toList.map fun r =>
        (FollowSets.ofRule g.automaton [] none [] r).result.toOption.map
          fun sets => (sets.combined.contains 1, sets.combined.contains 2)) =
      some [some (false, true)] := by
    decide +kernel
  obtain ⟨g, h, found⟩ := exists_ok_of_toOption survey
  have first := congrArg (·[0]?) found
  simp only [List.getElem?_map, Array.getElem?_toList, List.getElem?_cons_zero,
    Option.map_eq_some_iff] at first
  obtain ⟨r, hr, sets, hsets, contains⟩ := first
  obtain ⟨no_plus, n⟩ := Prod.mk.inj contains
  obtain ⟨sets', hsets', sound, -, complete⟩ := combined_iff_first h (by decide +kernel) hr [] []
  rw [hsets'] at hsets
  cases hsets
  have tame : Survey.Tame g.automaton r.start := fun rule _ _ _ _ nullable =>
    absurd nullable (leftSum_not_nullable h rule)
  refine ⟨g, r, h, hr, tame, sound 2 (by decide) n, fun run => ?_⟩
  rw [((complete tame).1 1 (by decide)).mpr run] at no_plus
  cases no_plus

/-- A rule that can be empty and starts with itself: behind the inner call the survey does not go
on. -/
def selfStart : Bytes := "Aa = Bb . Bb = [ Bb \"x\" ] ."

theorem combined_misses_first :
    ∃ (g : Grammar) (r : Rule) (sets : FollowSets) (c : Config),
      parse "g" selfStart "Aa" [] = .ok g ∧ g.automaton.rules[0]? = some r ∧
      (FollowSets.ofRule g.automaton [] none [] r).result = .ok sets ∧
      Run g.automaton (fun _ => True) ⟨r.start, []⟩ [1] c ∧
      sets.combined.contains 1 = false := by
  have outline : (parse "g" selfStart "Aa" []).toOption.map (fun g =>
      (g.automaton.states.toList.map State.transitions,
        g.automaton.states.toList.map State.kind)) =
      some ([[.epsilon 4], [], [.epsilon 10], [], [.call 1 5], [.epsilon 1], [.call 1 7],
        [.epsilon 8], [.atom 9 1], [.epsilon 11], [.epsilon 6, .epsilon 11], [.epsilon 3]],
        [.ruleStart, .ruleStop, .ruleStart, .ruleStop, .basic, .basic, .basic, .basic, .basic,
          .basic, .blockStart, .blockEnd]) := by
    decide +kernel
  have survey : (parse "g" selfStart "Aa" []).toOption.map (fun g =>
      g.automaton.rules.toList.map fun r => (r.start,
        (FollowSets.ofRule g.automaton [] none [] r).result.toOption.map
          fun sets => sets.combined.contains 1)) = some [(0, some false), (2, some false)] := by
    decide +kernel
  obtain ⟨g, h, states⟩ := exists_ok_of_toOption outline
  obtain ⟨transitions, kinds⟩ := Prod.mk.inj states
  have out := transitionsAt_eq_of_map transitions
  have stops := isStop_iff_of_map kinds
  obtain ⟨g', h', found⟩ := exists_ok_of_toOption survey
  cases h.symm.trans h'
  have first := congrArg (·[0]?) found
  have second := congrArg (·[1]?) found
  simp only [List.getElem?_map, Array.getElem?_toList, List.getElem?_cons_zero,
    List.getElem?_cons_succ, Option.map_eq_some_iff, Prod.mk.injEq] at first second
  obtain ⟨r, hr, hstart, surveyed⟩ := first
  obtain ⟨r', hr', hstart', -⟩ := second
  obtain ⟨sets, hsets, misses⟩ := exists_ok_of_toOption (Option.map_eq_some_iff.mpr surveyed)
  refine ⟨g, r, sets, ⟨9, [5]⟩, h, hr, hsets, ?_, misses⟩
  rw [hstart]
  have enter : ∀ {n stack} follow, .call 1 follow ∈ g.automaton.transitionsAt n →
      Step g.automaton (fun _ => True) ⟨n, stack⟩ [] ⟨2, follow :: stack⟩ :=
    fun _ hc => hstart' ▸ .call hc hr'
  have silent : ∀ {n stack} target, .epsilon target ∈ g.automaton.transitionsAt n →
      Step g.automaton (fun _ => True) ⟨n, stack⟩ [] ⟨target, stack⟩ :=
    fun _ he => .move (.epsilon he)
  exact .step (silent 4 (by simp [out])) <|
    .step (enter 5 (by simp [out])) <|
    .step (silent 10 (by simp [out])) <|
    .step (silent 6 (by simp [out])) <|
    .step (enter 7 (by simp [out])) <|
    .step (silent 10 (by simp [out])) <|
    .step (silent 11 (by simp [out])) <|
    .step (silent 3 (by simp [out])) <|
    .step (.pop ((stops 3).mpr rfl)) <|
    .step (silent 8 (by simp [out])) <|
    .single (.move (.symbol (t := .atom 9 1) (by simp [out]) rfl rfl
      (IntervalSet.mem_singleton.mpr rfl)))

end Grammar

end GrammarCompletion
