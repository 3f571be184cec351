import GrammarCompletion.Proofs.Completion.Exactness

/-!
# Hints are forced

The tokens recorded behind a candidate are those on the only way on from the state behind it. Every
run takes this way, so it consumes them as far as it goes. A candidate that is met in several places
keeps its hint only if it is the same in all of them, and no place is missed.
-/

namespace GrammarCompletion

open Automaton

/-! ## The only way on -/

section
variable {a : Automaton} {ignored : List Symbol} {seen : List Nat} {n : Nat}

/-- A run does not leave a state inside a rule by a pop, and by a call only if there is one. -/
theorem Automaton.Run.first_move {holds : PredicateCall → Prop} {stack : List Nat}
    {u : List Symbol} {c : Config} {s : State} (h : Run a holds ⟨n, stack⟩ u c)
    (hs : a.states[n]? = some s) (hk : s.kind ≠ .ruleStop)
    (noCall : ∀ rule follow, .call rule follow ∉ s.transitions) :
    u = [] ∨ ∃ v w m, u = v ++ w ∧ Move a holds n v m ∧ Run a holds ⟨m, stack⟩ w c := by
  cases h with
  | refl => exact .inl rfl
  | step step run =>
    cases step with
    | move hm => exact .inr ⟨_, _, _, rfl, hm, run⟩
    | call hc =>
      rw [transitionsAt_of_state hs] at hc
      exact absurd hc (noCall _ _)
    | pop hstop =>
      obtain ⟨s', hs', hk'⟩ := hstop
      cases hs.symm.trans hs'
      exact absurd hk' hk

/-- What a run consumes from a state on agrees with the tokens that are forced there. -/
theorem forcedFrom_agrees {holds : PredicateCall → Prop} {stack : List Nat} {u : List Symbol}
    {c : Config} (run : Run a holds ⟨n, stack⟩ u c) :
    forcedFrom a ignored seen n <+: u ∨ u <+: forcedFrom a ignored seen n := by
  fun_induction forcedFrom a ignored seen n generalizing u with
  | case4 seen n _ s hs hk target only ih =>
    rcases run.first_move hs hk (by simp [only]) with rfl | ⟨v, w, m, rfl, move, rest⟩
    · exact .inr List.nil_prefix
    · have moves : ∀ t ∈ a.transitionsAt n, t = .epsilon target := by
        simp [transitionsAt_of_state hs, only]
      cases move with
      | epsilon ht =>
        cases moves _ ht
        exact ih rest
      | predicate ht | wildcard ht => cases moves _ ht
      | symbol ht htarget =>
        cases moves _ ht
        cases htarget
  | case6 seen n _ s hs hk target x only _ ih =>
    rcases run.first_move hs hk (by simp [only]) with rfl | ⟨v, w, m, rfl, move, rest⟩
    · exact .inr List.nil_prefix
    · have moves : ∀ t ∈ a.transitionsAt n, t = .atom target x := by
        simp [transitionsAt_of_state hs, only]
      cases move with
      | epsilon ht | predicate ht | wildcard ht => cases moves _ ht
      | symbol ht htarget hl hx =>
        cases moves _ ht
        cases htarget
        cases hl
        cases IntervalSet.mem_singleton.mp hx
        rcases ih rest with agree | agree
        · exact .inl (List.cons_prefix_cons.mpr ⟨rfl, agree⟩)
        · exact .inr (List.cons_prefix_cons.mpr ⟨rfl, agree⟩)
  | _ => exact .inl List.nil_prefix

theorem not_ignored_of_forcedFrom :
    ∀ y ∈ forcedFrom a ignored seen n, y ∉ ignored := by
  fun_induction forcedFrom a ignored seen n with
  | case4 _ _ _ _ _ _ _ _ ih => exact ih
  | case6 _ _ _ _ _ _ _ x _ kept ih =>
    rw [List.contains_iff_mem] at kept
    exact List.forall_mem_cons.mpr ⟨kept, ih⟩
  | _ => simp

theorem not_ignored_of_forcedAfter (t : Transition) :
    ∀ y ∈ forcedAfter a ignored t, y ∉ ignored := by
  cases t with
  | atom | set | notSet => exact not_ignored_of_forcedFrom
  | epsilon | wildcard | predicate | call => simp [forcedAfter]

end

/-! ## Hints that are recorded -/

def Candidates.Hints (P : List Symbol → Prop) (c : Candidates) : Prop :=
  ∀ (x : Symbol) (hint : List Symbol), c.tokens[x]? = some hint → P hint

section
variable {P : List Symbol → Prop} {c : Candidates} {engine : Engine} {frames : List Frame}

theorem Candidates.Hints.addToken (empty : P []) {x : Symbol} {following : List Symbol}
    (hf : P following) (h : c.Hints P) : (c.addToken x following).Hints P := by
  intro y hint found
  by_cases same : y = x
  · subst same
    obtain ⟨hint', found', which⟩ := getElem?_addToken_self c y following
    cases found.symm.trans found'
    rcases which with rfl | rfl
    · exact hf
    · exact empty
  · rw [getElem?_addToken_of_ne same] at found
    exact h y hint found

theorem Candidates.Hints.addRule (h : c.Hints P) (rule : Int) (path : List Int) :
    (c.addRule rule path).Hints P := by
  intro y hint found
  rw [tokens_addRule] at found
  exact h y hint found

theorem Candidates.Hints.addBelow (empty : P []) {path : List Nat} {label : IntervalSet}
    {following : List Symbol} {d : Candidates} (hf : P following) (h : c.Hints P)
    (done : c.addBelow engine frames path label following = .ok d) : d.Hints P := by
  rw [addBelow_eq] at done
  split at done
  · cases done
    exact h.addRule _ _
  · rw [addSymbols_eq_ok done]
    refine foldl_induction (Hints P) (fun d y hd => ?_) label.elements h
    split
    · exact hd
    · exact hd.addToken empty hf

theorem Candidates.Hints.addOutermost (h : c.Hints P) (path : List Nat) :
    (c.addOutermost engine frames path).Hints P := by
  intro y hint found
  rw [tokens_addOutermost] at found
  exact h y hint found

theorem Candidates.Hints.addFollowSets (empty : P []) {rule : Nat} {sets : FollowSets}
    (hf : ∀ set ∈ sets.sets, P set.following) (h : c.Hints P) {d : Candidates}
    (done : c.addFollowSets engine frames rule sets = .ok d) : d.Hints P := by
  unfold Candidates.addFollowSets at done
  split at done
  · cases done
    exact h.addOutermost _
  · generalize sets.sets = all at hf done
    induction all generalizing c with
    | nil =>
      cases done
      exact h
    | cons set all ih =>
      rw [List.forall_mem_cons] at hf
      obtain ⟨e, first, rest⟩ := foldlM_cons_ok done
      exact ih (h.addBelow empty hf.1 first) hf.2 rest

end

def Engine.Surveys (engine : Engine) (r : Rule) (sets : FollowSets) : Prop :=
  ∃ evaluator asked,
    (FollowSets.ofRule engine.automaton engine.ignored evaluator asked r).result = .ok sets

theorem Engine.Surveys.not_ignored {engine : Engine} {r : Rule} {sets : FollowSets}
    (h : engine.Surveys r sets) :
    ∀ set ∈ sets.sets, ∀ y ∈ set.following, y ∉ engine.ignored := by
  obtain ⟨evaluator, asked, found⟩ := h
  intro set member
  rcases (FollowSets.stem_of_ofRule found set member).origin with ⟨-, none⟩ | ⟨n, t, -, -, none | forced⟩
  · simp [none]
  · simp [none]
  · rw [forced]
    exact not_ignored_of_forcedAfter t

theorem Request.stable_hints (q : Request) : q.Stable q.engine.Surveys
    (Candidates.Hints fun hint => ∀ y ∈ hint, y ∉ q.engine.ignored) where
  below c d frames label following hf hc := by
    refine hc.addBelow (by simp) ?_
    rcases hf with rfl | ⟨t, rfl⟩
    · simp
    · exact not_ignored_of_forcedAfter t
  outermost c frames hc := hc.addOutermost []
  sets c d frames rule r sets hsets hc := hc.addFollowSets (by simp) hsets.not_ignored

namespace Grammar

variable {name text start : Bytes} {skip : List Bytes} {g : Grammar}

/-- With a grammar in which no rule both ends and enters itself again without input, the hint of a
candidate is forced: whatever a run consumes behind the tokens before the caret and the candidate
agrees with the hint as far as both go. No token of a hint is ignored. The text is one whose token
types fit 64 bits, and the cache, which holds surveys for the engine, does so afterwards. -/
theorem hints_forced (h : parse name text start skip = .ok g) (small : text.length < 2 ^ 63)
    (tame : ∀ rule, g.automaton.Nullable (fun _ => True) rule →
      ¬ g.automaton.Reenters (fun _ => True) rule)
    {engine : Engine} (ha : engine.automaton = g.automaton) (hp : engine.preferred = [])
    {cache : Cache} (hc : cache.Keeps g.automaton engine.identity engine.Surveys)
    {stream : TokenStream} {caret : Int} {context : RuleContext} {r : Rule} {window : List Token}
    (hr : g.automaton.rule? context.rule = some r)
    (hw : stream.window context.start caret = .ok window) :
    ∃ candidates, (engine.collect cache stream caret context none).result = .ok candidates ∧
      (∀ t hint, candidates.tokens[t]? = some hint →
        (∀ u c, Run g.automaton (fun _ => True) ⟨r.start, []⟩
          (window.dropLast.map Token.symbol ++ t :: u) c → hint <+: u ∨ u <+: hint) ∧
        ∀ y ∈ hint, y ∉ engine.ignored) ∧
      (engine.collect cache stream caret context none).cache.Keeps g.automaton engine.identity
        engine.Surveys := by
  have thorough := thorough h small tame ha window.toArray
  rw [← ha] at hc hr ⊢
  let q : Request := ⟨engine, window.toArray, none⟩
  have word : q.word = window.dropLast.map Token.symbol := by simp [q, Request.word]
  have nonempty : 0 < q.window.size := by
    simpa [q] using List.length_pos_iff.mpr (TokenStream.window_ne_nil hw)
  have faithful : cache.Faithful engine.automaton engine.identity (fun _ => True) := by
    intro rule r sets hr found
    obtain ⟨evaluator, asked, surveyed⟩ := hc rule r sets hr found
    exact ⟨_, evaluator, asked, Survey.confirms_true _, surveyed⟩
  obtain ⟨ends, s, hs, sound, noted⟩ := thorough.search nonempty faithful (rules_of_rule? hr)
  have initial : Candidates.Hints (fun hint => ∀ y ∈ hint, y ∉ engine.ignored)
      ({ cache := cache } : Session).candidates := by
    intro x hint found
    simp at found
  have finds : q.Finds engine.Surveys := fun asked r sets found => ⟨none, asked, found⟩
  obtain ⟨hints, keeps⟩ := (Request.enterRule_preserves thorough.wellFormed.inPlace finds
    q.stable_hints ⟨initial, hc⟩).of_ok hs
  rw [Engine.collect_of_enterRule hr hw hs]
  refine ⟨_, rfl, fun t hint found => ⟨fun u c run => ?_, hints t hint found⟩, keeps⟩
  rw [← word] at run
  obtain ⟨d, before, after⟩ := run.split
  obtain ⟨n, target, stack, silent, move, rest⟩ := after.first
  have whole := before.trans silent
  rw [List.append_nil] at whole
  obtain ⟨_, _, _, _, _, -, -, -, -, -, rules, following, accounts, -, forced⟩ :=
    noted n stack target t whole (atom_of_move thorough.plain move)
  -- The hint is what is forced behind this transition, or nothing.
  have kept : t ∉ engine.ignored :=
    (sound.tokens t (Std.TreeMap.mem_iff_isSome_getElem?.mpr (by simp [found]))).2.1
  simp only [Candidates.Accounts, hp, Candidates.outermost?_nil] at accounts
  obtain ⟨hint', found', which⟩ := accounts kept
  cases found.symm.trans found'
  rcases which with rfl | rfl
  · rcases forced with rfl | ⟨ignored, rfl⟩
    · exact .inl List.nil_prefix
    · exact forcedFrom_agrees rest
  · exact .inl List.nil_prefix

/-- In a sum a plus is followed by a number, and the candidate says so. -/
theorem hints_forced_leftSum :
    ∃ (g : Grammar) (r : Rule) (candidates : Candidates), parse "g" leftSum "Ee" [] = .ok g ∧
      g.automaton.rule? 0 = some r ∧
      (Engine.collect ⟨g.automaton, .automaton 0, [], []⟩ {}
        (.ofTokens [{ symbol := 2 }, { symbol := 1 }]) 1 {} none).result = .ok candidates ∧
      candidates.tokens[(1 : Symbol)]? = some [2] ∧
      ∀ x u c, Run g.automaton (fun _ => True) ⟨r.start, []⟩ ([2] ++ 1 :: x :: u) c → x = 2 := by
  let stream := TokenStream.ofTokens [{ symbol := 2 }, { symbol := 1 }]
  have answered : (parse "g" leftSum "Ee" []).toOption.map (fun g => ((g.automaton.rule? 0).isSome,
      (Engine.collect ⟨g.automaton, .automaton 0, [], []⟩ {} stream 1 {} none).result.toOption.map
        fun c => c.tokens[(1 : Symbol)]?)) = some (true, some (some [2])) := by
    decide +kernel
  obtain ⟨g, h, found⟩ := exists_ok_of_toOption answered
  simp only [Prod.mk.injEq, Option.isSome_iff_exists] at found
  obtain ⟨⟨r, hr⟩, answer⟩ := found
  obtain ⟨candidates, hc, hint⟩ := exists_ok_of_toOption answer
  obtain ⟨window, hw, word⟩ := exists_ok_of_toOption (show (stream.window 0 1).toOption.map
    (fun window => window.dropLast.map Token.symbol) = some [2] by decide +kernel)
  have automaton : Engine.automaton ⟨g.automaton, .automaton 0, [], []⟩ = g.automaton := rfl
  have context : g.automaton.rule? ({} : RuleContext).rule = some r := hr
  obtain ⟨candidates', hc', forced, -⟩ := hints_forced h (by decide +kernel)
    (fun rule nullable => absurd nullable (leftSum_not_nullable h rule)) automaton rfl
    Cache.keeps_empty context hw
  cases hc.symm.trans hc'
  refine ⟨g, r, candidates, h, hr, hc, hint, fun x u c run => ?_⟩
  rw [← word] at run
  rcases (forced 1 [2] hint).1 (x :: u) c run with agree | agree
  · exact (List.cons_prefix_cons.mp agree).1.symm
  · exact (List.cons_prefix_cons.mp agree).1

end Grammar

end GrammarCompletion
