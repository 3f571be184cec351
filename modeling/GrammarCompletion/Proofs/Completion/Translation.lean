import GrammarCompletion.Proofs.Completion.Exactness

/-!
# Preferred rules stand for their tokens

Where a preferred rule is open, the outermost one is recorded in place of a token. A rule is walked
once for each position, so its tokens are recorded only below the calls by which it was entered
first. On another way into the rule they can be missed, unless all ways have the same outermost
preferred rule.
-/

namespace GrammarCompletion

open Automaton

namespace Automaton

/-- The token type can come next after a run over the word, where the rules are open. -/
def Viable (a : Automaton) (start : Nat) (word : List Symbol) (rules : List Nat) (x : Symbol) :
    Prop :=
  ∃ n stack, Run a (fun _ => True) ⟨start, []⟩ word ⟨n, stack⟩ ∧ a.Offers n x ∧
    a.activeRules ⟨n, stack⟩ = rules

/-- All runs over the same part of the word that enter the same rule have the same outermost
preferred rule open. -/
def Uniform (a : Automaton) (preferred : List Int) (start : Nat) (word : List Symbol) : Prop :=
  ∀ (rule : Nat) (r : Rule) (v : List Symbol) (stack stack' : List Nat), a.rules[rule]? = some r →
    v <+: word → Run a (fun _ => True) ⟨start, []⟩ v ⟨r.start, stack⟩ →
    Run a (fun _ => True) ⟨start, []⟩ v ⟨r.start, stack'⟩ →
    Candidates.outermost? preferred (a.activeRules ⟨r.start, stack⟩) =
      Candidates.outermost? preferred (a.activeRules ⟨r.start, stack'⟩)

end Automaton

/-- A token type met where the rules are open is recorded: as the outermost preferred one of them,
or without one as itself, unless it is ignored. -/
def Candidates.Translates (c : Candidates) (engine : Engine) (rules : List Nat) (x : Symbol) :
    Prop :=
  (∃ rule : Nat, outermost? engine.preferred rules = some rule ∧ (rule : Int) ∈ c.rules) ∨
    outermost? engine.preferred rules = none ∧ (x ∉ engine.ignored → x ∈ c.tokens)

theorem Candidates.Accounts.translates {c : Candidates} {engine : Engine} {rules : List Nat}
    {x : Symbol} {following : List Symbol} (h : c.Accounts engine rules x following) :
    c.Translates engine rules x := by
  unfold Accounts at h
  split at h
  case h_1 rule found => exact .inl ⟨rule, found, h⟩
  case h_2 free =>
    refine .inr ⟨free, fun kept => ?_⟩
    obtain ⟨hint, found, -⟩ := h kept
    rw [Std.TreeMap.mem_iff_isSome_getElem?, found]
    rfl

theorem Candidates.Translates.token {c : Candidates} {engine : Engine} {rules : List Nat}
    {x : Symbol} (h : c.Translates engine rules x) (free : outermost? engine.preferred rules = none)
    (kept : x ∉ engine.ignored) : x ∈ c.tokens := by
  rcases h with ⟨rule, found, -⟩ | ⟨-, recorded⟩
  · cases free.symm.trans found
  · exact recorded kept

theorem Candidates.Translates.rule {c : Candidates} {engine : Engine} {rules : List Nat}
    {x : Symbol} {rule : Nat} (h : c.Translates engine rules x)
    (outer : outermost? engine.preferred rules = some rule) : (rule : Int) ∈ c.rules := by
  rcases h with ⟨rule', found, recorded⟩ | ⟨free, -⟩
  · cases outer.symm.trans found
    exact recorded
  · cases free.symm.trans outer

namespace Request

variable {q : Request}

theorem Reads.eq {i j : Nat} {u v : List Symbol} (h : q.Reads i u j) (h' : q.Reads i v j) :
    u = v :=
  List.append_cancel_right (h.1.symm.trans h'.1)

/-- A search ends. What it leaves is real, and whatever can come next is recorded for a run that
enters its last rule behind the same tokens. -/
theorem Thorough.translates (hq : q.Thorough) (nonempty : 0 < q.window.size) {cache : Cache}
    (hc : cache.Faithful q.engine.automaton q.engine.identity (fun _ => True)) {rule : Nat}
    {r : Rule} (hr : q.engine.automaton.rules[rule]? = some r) :
    ∃ ends s, q.enterRule [] rule 0 { cache := cache } = .ok ends s ∧
      q.Sound (fun _ => True) r.start s ∧
      ∀ n stack x, Run q.engine.automaton (fun _ => True) ⟨r.start, []⟩ q.word ⟨n, stack⟩ →
        q.engine.automaton.Offers n x →
        ∃ (rule' : Nat) (r' : Rule) (v : List Symbol) (stack' : List Nat),
          q.engine.automaton.rules[rule']? = some r' ∧ v <+: q.word ∧
          Run q.engine.automaton (fun _ => True) ⟨r.start, []⟩ v ⟨r'.start, stack⟩ ∧
          Run q.engine.automaton (fun _ => True) ⟨r.start, []⟩ v ⟨r'.start, stack'⟩ ∧
          q.engine.automaton.activeRules ⟨n, stack⟩ =
            q.engine.automaton.activeRules ⟨r'.start, stack⟩ ∧
          q.engine.automaton.Viable r.start q.word
            (q.engine.automaton.activeRules ⟨r'.start, stack'⟩) x ∧
          s.candidates.Translates q.engine
            (q.engine.automaton.activeRules ⟨r'.start, stack'⟩) x := by
  obtain ⟨ends, s, hs, sound, noted⟩ := hq.search nonempty hc hr
  refine ⟨ends, s, hs, sound, fun n stack x run offers => ?_⟩
  obtain ⟨target, ht⟩ := atom_of_offers hq.plain offers
  obtain ⟨rule', r', i, v, w, hr', first, reads, path, reads', rules, following, accounts, reached,
    -⟩ := noted n stack target x run ht
  obtain ⟨v', stack', first', again, rfl⟩ := (reached r' hr').run
  cases reads.eq again
  have within := hq.wellFormed.stays.owner?_path path
  have whole := first'.trans (path.run stack')
  rw [(reads.trans reads').eq_word (atCaret_iff.mpr (Nat.le_refl _))] at whole
  have viable := activeRules_congr within stack'
  exact ⟨rule', r', v, stack', hr', ⟨_, reads.1.symm⟩, first, first',
    activeRules_congr within stack, ⟨n, stack', whole, offers, viable⟩, accounts.translates⟩

end Request

namespace Grammar

variable {name text start : Bytes} {skip : List Bytes} {g : Grammar}

/-- With a grammar in which no rule both ends and enters itself again without input, a candidate
token can come next where no preferred rule is open, and a candidate rule is the outermost preferred
one that is open after the tokens before the caret. Whatever can come next is recorded for some call
stack with which it can come next, and for all of them if the outermost preferred rule does not
depend on the way into a rule. -/
theorem candidates_translate (h : parse name text start skip = .ok g)
    (small : text.length < 2 ^ 63)
    (tame : ∀ rule, g.automaton.Nullable (fun _ => True) rule →
      ¬ g.automaton.Reenters (fun _ => True) rule)
    {engine : Engine} (ha : engine.automaton = g.automaton)
    {cache : Cache} (hc : cache.Faithful g.automaton engine.identity (fun _ => True))
    {stream : TokenStream} {caret : Int} {context : RuleContext} {r : Rule} {window : List Token}
    (hr : g.automaton.rule? context.rule = some r)
    (hw : stream.window context.start caret = .ok window) {word : List Symbol}
    (hword : word = window.dropLast.map Token.symbol) :
    ∃ candidates, (engine.collect cache stream caret context none).result = .ok candidates ∧
      (∀ t ∈ candidates.tokens, t ∉ engine.ignored ∧ ∃ rules,
        g.automaton.Viable r.start word rules t ∧
        Candidates.outermost? engine.preferred rules = none) ∧
      (∀ p ∈ candidates.rules, ∃ (rule n : Nat) (stack : List Nat), p = rule ∧
        Run g.automaton (fun _ => True) ⟨r.start, []⟩ word ⟨n, stack⟩ ∧
        Candidates.outermost? engine.preferred (g.automaton.activeRules ⟨n, stack⟩) = some rule) ∧
      (∀ rules t, g.automaton.Viable r.start word rules t →
        ∃ rules', g.automaton.Viable r.start word rules' t ∧
          candidates.Translates engine rules' t) ∧
      (g.automaton.Uniform engine.preferred r.start word →
        (∀ t, t ∈ candidates.tokens ↔ t ∉ engine.ignored ∧ ∃ rules,
          g.automaton.Viable r.start word rules t ∧
          Candidates.outermost? engine.preferred rules = none) ∧
        ∀ rules t (rule : Nat), g.automaton.Viable r.start word rules t →
          Candidates.outermost? engine.preferred rules = some rule →
          (rule : Int) ∈ candidates.rules) := by
  have thorough := thorough h small tame ha window.toArray
  rw [← ha] at hc hr ⊢
  let q : Request := ⟨engine, window.toArray, none⟩
  have same : word = q.word := by simp [hword, q, Request.word]
  subst same
  have nonempty : 0 < q.window.size := by
    simpa [q] using List.length_pos_iff.mpr (TokenStream.window_ne_nil hw)
  obtain ⟨ends, s, hs, sound, met⟩ := thorough.translates nonempty hc (rules_of_rule? hr)
  have shown : ∀ t ∈ s.candidates.tokens, t ∉ engine.ignored ∧ ∃ rules,
      engine.automaton.Viable r.start q.word rules t ∧
      Candidates.outermost? engine.preferred rules = none := by
    intro t ht
    obtain ⟨-, kept, n, stack, run, offers, free⟩ := sound.tokens t ht
    exact ⟨kept, _, ⟨n, stack, run, offers, rfl⟩, free⟩
  rw [Engine.collect_of_enterRule hr hw hs]
  refine ⟨_, rfl, shown, fun p hp => ?_, ?_, fun uniform => ?_⟩
  · obtain ⟨rule, same, n, stack, run, outer⟩ := sound.rules p hp
    exact ⟨rule, n, stack, same, run, outer⟩
  · rintro _ t ⟨n, stack, run, offers, rfl⟩
    obtain ⟨_, _, _, _, -, -, -, -, -, viable, translates⟩ := met n stack t run offers
    exact ⟨_, viable, translates⟩
  · -- The stack for which a token was recorded has the same outermost preferred rule.
    have all : ∀ rules t, engine.automaton.Viable r.start q.word rules t →
        s.candidates.Translates engine rules t := by
      rintro _ t ⟨n, stack, run, offers, rfl⟩
      obtain ⟨rule, r', v, stack', hr', known, first, first', active, -, translates⟩ :=
        met n stack t run offers
      unfold Candidates.Translates at translates ⊢
      rw [active, uniform rule r' v stack stack' hr' known first first']
      exact translates
    constructor
    · refine fun t => ⟨shown t, ?_⟩
      rintro ⟨kept, rules, viable, free⟩
      exact (all rules t viable).token free kept
    · intro rules t rule viable outer
      exact (all rules t viable).rule outer

/-- Two ways into a rule, and a rule that ends behind the same token. -/
def twoWays : Bytes :=
  "Ss = Qq | Pp | Rr \"z\" . Pp = Ee . Qq = Ee . Rr = \"a\" . Ee = \"a\" \"b\" ."

def twoWaysTransitions : List (List Transition) :=
  [[.epsilon 10], [], [.epsilon 20], [], [.epsilon 22], [], [.epsilon 24], [], [.epsilon 26], [],
    [.epsilon 12, .epsilon 14, .epsilon 16], [.epsilon 1], [.call 2 13], [.epsilon 11],
    [.call 1 15], [.epsilon 11], [.call 3 17], [.epsilon 18], [.atom 19 1], [.epsilon 11],
    [.call 4 21], [.epsilon 3], [.call 4 23], [.epsilon 5], [.atom 25 2], [.epsilon 7],
    [.atom 27 2], [.epsilon 28], [.atom 29 3], [.epsilon 9]]

def twoWaysOwners : List Nat :=
  [0, 0, 1, 1, 2, 2, 3, 3, 4, 4, 0, 0, 0, 0, 0, 0, 0, 0, 0, 0, 1, 1, 2, 2, 3, 3, 4, 4, 4, 4]

section
variable (h : parse "g" twoWays "Ss" [] = .ok g)
include h

theorem twoWays_states :
    (∀ n, g.automaton.transitionsAt n = twoWaysTransitions[n]?.getD []) ∧
      (∀ n, g.automaton.owner? n = twoWaysOwners[n]?) ∧
      ∀ rule : Nat, g.automaton.rules[rule]?.map Rule.start = [0, 2, 4, 6, 8][rule]? := by
  have outline : (parse "g" twoWays "Ss" []).toOption.map (fun g =>
      (g.automaton.states.toList.map State.transitions, g.automaton.states.toList.map State.rule,
        g.automaton.rules.toList.map Rule.start)) =
      some (twoWaysTransitions, twoWaysOwners, [0, 2, 4, 6, 8]) := by
    decide +kernel
  simp only [h, Except.toOption, Option.map_some, Option.some.injEq, Prod.mk.injEq] at outline
  obtain ⟨transitions, owners, starts⟩ := outline
  refine ⟨transitionsAt_eq_of_map transitions, fun n => ?_, fun rule => ?_⟩
  · simp [owner?, ← owners]
  · simp [← starts]

theorem twoWays_mem_transitions {n : Nat} {t : Transition} (ht : t ∈ g.automaton.transitionsAt n) :
    t ∈ twoWaysTransitions.flatten := by
  rw [(twoWays_states h).1] at ht
  cases found : twoWaysTransitions[n]? with
  | none => simp [found] at ht
  | some transitions =>
    rw [found] at ht
    exact List.mem_flatten.mpr ⟨transitions, List.mem_of_getElem? found, ht⟩

theorem twoWays_not_nullable (rule : Nat) : ¬ g.automaton.Nullable (fun _ => True) rule := by
  have kinds : (parse "g" twoWays "Ss" []).toOption.map (fun g =>
      g.automaton.states.toList.map State.kind) =
      some ((List.replicate 5 [.ruleStart, .ruleStop]).flatten ++
        [.blockStart, .blockEnd] ++ List.replicate 18 .basic) := by
    decide +kernel
  simp only [h, Except.toOption, Option.map_some, Option.some.injEq] at kinds
  obtain ⟨out, -, starts⟩ := twoWays_states h
  let trap : List Nat := [0, 2, 4, 6, 8, 10, 12, 14, 16, 20, 22, 24, 26]
  have start : ∀ (rule : Nat) (r : Rule), g.automaton.rules[rule]? = some r → r.start ∈ trap := by
    intro rule r hr
    have found := starts rule
    rw [hr] at found
    exact List.mem_append_left [10, 12, 14, 16, 20, 22, 24, 26] (List.mem_of_getElem? found.symm)
  have silent : ∀ n ∈ trap, ∀ t ∈ twoWaysTransitions[n]?.getD [],
      t = .epsilon t.next → t.next ∈ trap := by
    decide
  refine not_nullable_of_trap trap ?_ ?_ (start rule)
  · simp only [isStop_iff_of_map kinds]
    decide
  · intro n hn t ht
    cases t with
    | epsilon target =>
      rw [out] at ht
      exact silent n hn _ ht rfl
    | call callee => exact start callee
    | predicate => exact ((filled h).plain n _ ht).elim
    | atom | set | notSet | wildcard => trivial

theorem twoWays_follow {n rule follow : Nat}
    (hc : .call rule follow ∈ g.automaton.transitionsAt n) : follow ∈ [13, 15, 17, 21, 23] := by
  have follows : twoWaysTransitions.flatten.filterMap
      (fun t => match t with | .call _ follow => some follow | _ => none) = [13, 15, 17, 21, 23] :=
    rfl
  rw [← follows]
  exact List.mem_filterMap.mpr ⟨_, twoWays_mem_transitions h hc, rfl⟩

theorem twoWays_stack {w : List Symbol} {n : Nat} {stack : List Nat}
    (run : Run g.automaton (fun _ => True) ⟨0, []⟩ w ⟨n, stack⟩) :
    ∀ follow ∈ stack, follow ∈ [13, 15, 17, 21, 23] := by
  intro follow hf
  rcases run.mem_stack hf with hf | ⟨m, rule, hc⟩
  · cases hf
  · exact twoWays_follow h hc

/-- The rule that ends behind the first token calls none, so it is open only where the run is
in it. -/
theorem twoWays_owner {w : List Symbol} {n : Nat} {stack : List Nat}
    (run : Run g.automaton (fun _ => True) ⟨0, []⟩ w ⟨n, stack⟩)
    (hn : 3 ∈ g.automaton.activeRules ⟨n, stack⟩) : g.automaton.owner? n = some 3 := by
  simp only [activeRules, List.mem_reverse, List.mem_filterMap, List.mem_cons] at hn
  obtain ⟨k, rfl | hk, owner⟩ := hn
  · exact owner
  · have callers : ∀ follow ∈ [13, 15, 17, 21, 23], twoWaysOwners[follow]? ≠ some 3 := by decide
    rw [(twoWays_states h).2.1] at owner
    exact absurd owner (callers k (twoWays_stack h run k hk))

/-- Behind the first token that rule has nothing more to offer. -/
theorem twoWays_silent {n : Nat} {stack : List Nat}
    (run : Run g.automaton (fun _ => True) ⟨0, []⟩ [2] ⟨n, stack⟩)
    (owner : g.automaton.owner? n = some 3) (x : Symbol) : ¬ g.automaton.Offers n x := by
  obtain ⟨out, owners, -⟩ := twoWays_states h
  -- The states behind the token, closed under all that a run can do there.
  let behind : List Nat := [25, 7, 17, 18, 19, 27, 28, 29, 9, 13, 11, 1, 15, 21, 3, 23, 5]
  obtain ⟨m, k, stack', before, move, after⟩ := run.first
  have first : k ∈ behind := by
    have targets : ∀ t ∈ twoWaysTransitions.flatten, t = .atom t.next 2 → t.next ∈ behind := by
      decide
    exact targets _ (twoWays_mem_transitions h (atom_of_move (filled h).plain move)) rfl
  have closed : ∀ n ∈ behind, ∀ t ∈ g.automaton.transitionsAt n, t.next ∈ behind ∧
      ∀ rule follow, t ≠ .call rule follow := by
    have listed : ∀ n ∈ behind, ∀ t ∈ twoWaysTransitions[n]?.getD [], t.next ∈ behind ∧
        (t = .epsilon t.next ∨ t.symbolTarget? = some t.next) := by
      decide
    intro n hn t ht
    rw [out] at ht
    obtain ⟨next, kind⟩ := listed n hn t ht
    refine ⟨next, ?_⟩
    rintro rule follow rfl
    simp [Transition.symbolTarget?] at kind
  have follows : ∀ follow ∈ [13, 15, 17, 21, 23], follow ∈ behind := by decide
  have here : n ∈ behind := after.mem_of_closed closed first fun follow hf =>
    follows follow (twoWays_stack h before follow hf)
  have mute : ∀ n ∈ behind, twoWaysOwners[n]? = some 3 → ∀ t ∈ twoWaysTransitions[n]?.getD [],
      t = .epsilon t.next := by
    decide
  rintro ⟨t, ht, label, hl, -⟩
  rw [out] at ht
  rw [owners] at owner
  rw [mute n here owner t ht] at hl
  cases hl

theorem twoWays_other : g.automaton.Viable 0 [2] [0, 2, 4] 3 := by
  obtain ⟨out, owners, starts⟩ := twoWays_states h
  have silent : ∀ {n stack} target, .epsilon target ∈ g.automaton.transitionsAt n →
      Step g.automaton (fun _ => True) ⟨n, stack⟩ [] ⟨target, stack⟩ :=
    fun _ he => .move (.epsilon he)
  have enter : ∀ {n stack start} rule follow, [0, 2, 4, 6, 8][rule]? = some start →
      .call rule follow ∈ g.automaton.transitionsAt n →
      Step g.automaton (fun _ => True) ⟨n, stack⟩ [] ⟨start, follow :: stack⟩ := by
    intro n stack start rule follow known hc
    rw [← starts] at known
    obtain ⟨r, hr, rfl⟩ := Option.map_eq_some_iff.mp known
    exact .call hc hr
  have first : Run g.automaton (fun _ => True) ⟨0, []⟩ [] ⟨26, [23, 13]⟩ :=
    .step (silent 10 (by simp [out, twoWaysTransitions])) <|
    .step (silent 12 (by simp [out, twoWaysTransitions])) <|
    .step (enter 2 13 rfl (by simp [out, twoWaysTransitions])) <|
    .step (silent 22 (by simp [out, twoWaysTransitions])) <|
    .step (enter 4 23 rfl (by simp [out, twoWaysTransitions])) <|
    .single (silent 26 (by simp [out, twoWaysTransitions]))
  have token : Step g.automaton (fun _ => True) ⟨26, [23, 13]⟩ [2] ⟨27, [23, 13]⟩ :=
    .move (.symbol (t := .atom 27 2) (by simp [out, twoWaysTransitions]) rfl rfl
      (IntervalSet.mem_singleton.mpr rfl))
  refine ⟨28, [23, 13], first.trans (.step token (.single (silent 28 ?_))), ?_, ?_⟩
  · simp [out, twoWaysTransitions]
  · exact ⟨.atom 29 3, by simp [out, twoWaysTransitions], _, rfl, IntervalSet.mem_singleton.mpr rfl⟩
  · simp [activeRules, owners, twoWaysOwners]

/-- Only the way into the rule itself decides whether it is open. -/
theorem twoWays_uniform (w : List Symbol) : g.automaton.Uniform [3] 0 w := by
  intro rule r v stack stack' hr _ run run'
  have inside : ∀ {stack}, Run g.automaton (fun _ => True) ⟨0, []⟩ v ⟨r.start, stack⟩ →
      (3 ∈ g.automaton.activeRules ⟨r.start, stack⟩ ↔ g.automaton.owner? r.start = some 3) := by
    intro stack run
    refine ⟨twoWays_owner h run, fun owner => ?_⟩
    simp [activeRules, owner]
  have alone : ∀ rules, Candidates.outermost? [3] rules = if 3 ∈ rules then some 3 else none :=
    Candidates.outermost?_singleton 3
  simp only [alone, inside run, inside run']

end

/-- With only that rule preferred, exactly the other two tokens can come next outside of it. -/
theorem candidates_translate_twoWays :
    ∃ (g : Grammar) (r : Rule), parse "g" twoWays "Ss" [] = .ok g ∧
      g.automaton.rule? 0 = some r ∧ g.automaton.Uniform [3] r.start [2] ∧
      ∀ t, (∃ rules, g.automaton.Viable r.start [2] rules t ∧
        Candidates.outermost? [3] rules = none) ↔ t = 1 ∨ t = 3 := by
  let stream := TokenStream.ofTokens [{ symbol := 2 }, { symbol := 3 }]
  have answered : (parse "g" twoWays "Ss" []).toOption.map (fun g =>
      ((g.automaton.rule? 0).map Rule.start,
        (Engine.collect ⟨g.automaton, .automaton 0, [3], []⟩ {} stream 1 {}
          none).result.toOption.map fun c => c.tokens.keys)) = some (some 0, some [1, 3]) := by
    decide +kernel
  obtain ⟨g, h, found⟩ := exists_ok_of_toOption answered
  obtain ⟨root, answer⟩ := Prod.mk.inj found
  obtain ⟨r, hr, start⟩ := Option.map_eq_some_iff.mp root
  obtain ⟨candidates, hc, keys⟩ := exists_ok_of_toOption answer
  obtain ⟨window, hw, word⟩ := exists_ok_of_toOption (show (stream.window 0 1).toOption.map
    (fun window => window.dropLast.map Token.symbol) = some [2] by decide +kernel)
  have automaton : Engine.automaton ⟨g.automaton, .automaton 0, [3], []⟩ = g.automaton := rfl
  have context : g.automaton.rule? ({} : RuleContext).rule = some r := hr
  have uniform : g.automaton.Uniform [3] r.start [2] := by
    rw [start]
    exact twoWays_uniform h [2]
  obtain ⟨candidates', hc', -, -, -, exact_⟩ := candidates_translate h (by decide +kernel)
    (fun rule nullable => absurd nullable (twoWays_not_nullable h rule)) automaton
    Cache.faithful_empty context hw word.symm
  cases hc.symm.trans hc'
  refine ⟨g, r, h, hr, uniform, fun t => ?_⟩
  have member : t ∈ candidates.tokens ↔ t = 1 ∨ t = 3 := by
    rw [← Std.TreeMap.mem_keys, keys, List.mem_cons, List.mem_singleton]
  have viable := (exact_ uniform).1 t
  simp only [List.not_mem_nil, not_false_eq_true, true_and] at viable
  rw [← viable, member]

/-- The rule of the token behind two ways into it is walked for the preferred one only, so the token
is missed on the other way. A rule that is left at the caret is recorded though nothing can come
next in it. -/
theorem translation_depends_on_order :
    ∃ (g : Grammar) (r : Rule) (candidates : Candidates), parse "g" twoWays "Ss" [] = .ok g ∧
      g.automaton.rule? 0 = some r ∧
      (Engine.collect ⟨g.automaton, .automaton 0, [1, 3], []⟩ {}
        (.ofTokens [{ symbol := 2 }, { symbol := 3 }]) 1 {} none).result = .ok candidates ∧
      (g.automaton.Viable r.start [2] [0, 2, 4] 3 ∧
        Candidates.outermost? [1, 3] [0, 2, 4] = none ∧ 3 ∉ candidates.tokens) ∧
      3 ∈ candidates.rules ∧ ¬ ∃ rules t, g.automaton.Viable r.start [2] rules t ∧
        Candidates.outermost? [1, 3] rules = some 3 := by
  have answered : (parse "g" twoWays "Ss" []).toOption.map (fun g =>
      ((g.automaton.rule? 0).map Rule.start,
        (Engine.collect ⟨g.automaton, .automaton 0, [1, 3], []⟩ {}
          (.ofTokens [{ symbol := 2 }, { symbol := 3 }]) 1 {} none).result.toOption.map
          fun c => (c.tokens.keys, c.rules.keys))) = some (some 0, some ([1], [1, 3])) := by
    decide +kernel
  obtain ⟨g, h, found⟩ := exists_ok_of_toOption answered
  obtain ⟨root, answer⟩ := Prod.mk.inj found
  obtain ⟨r, hr, start⟩ := Option.map_eq_some_iff.mp root
  obtain ⟨candidates, hc, keys⟩ := exists_ok_of_toOption answer
  obtain ⟨tokens, rules⟩ := Prod.mk.inj keys
  refine ⟨g, r, candidates, h, hr, hc, ⟨?_, by decide, ?_⟩, ?_, ?_⟩
  · rw [start]
    exact twoWays_other h
  · rw [← Std.TreeMap.mem_keys, tokens]
    decide
  · rw [← Std.TreeMap.mem_keys, rules]
    decide
  · rw [start]
    rintro ⟨_, t, ⟨n, stack, run, offers, rfl⟩, outer⟩
    have open_ : 3 ∈ g.automaton.activeRules ⟨n, stack⟩ := List.mem_of_find?_eq_some outer
    exact twoWays_silent h run (twoWays_owner h run open_) t offers

end Grammar

end GrammarCompletion
