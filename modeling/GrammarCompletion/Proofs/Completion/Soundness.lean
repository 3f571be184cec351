import GrammarCompletion.Proofs.Completion.Search

/-!
# Every candidate can follow

A token is only recorded where a run over the tokens before the caret has come to, and the rules
open there are those of the frames. A session keeps this up by remembering only ends that a rule
really has: the ends of a call are then those of a run of the called rule, whether they were found
by a walk, remembered, or taken from a seed.

Behind the last token before the caret, rules are not walked but looked up in follow sets, and those
may have been found with another evaluator. So a run may pass other predicates there than before.
-/

namespace GrammarCompletion

open Automaton

/-- The predicates that runs may pass: those that hold, and at the caret those that hold there. -/
structure Trust where
  holds : PredicateCall → Prop
  atCaret : PredicateCall → Prop

def Trust.only (holds : PredicateCall → Prop) : Trust := ⟨holds, holds⟩

namespace Request

variable {q : Request} {trust : Trust} {truth : Rule → FollowSets → Prop} {start index : Nat}
  {s s' : Session} {frames : List Frame}

/-- What a request needs of its automaton and its evaluator for sound answers. -/
structure Regular (q : Request) (holds : PredicateCall → Prop) : Prop where
  inPlace : q.engine.automaton.RulesInPlace
  stays : q.engine.automaton.StaysInRule
  positive : q.engine.automaton.PositiveLabels
  confirms : Confirms q.evaluator holds

/-- What a request needs besides of the follow sets it finds and looks up. -/
structure Trusts (q : Request) (trust : Trust) (truth : Rule → FollowSets → Prop) : Prop extends
    Regular q trust.holds where
  weaker : ∀ call, trust.holds call → trust.atCaret call
  finds : q.Finds truth
  sound : ∀ (rule : Nat) (r : Rule) (sets : FollowSets),
    q.engine.automaton.rules[rule]? = some r → truth r sets →
    sets.Sound q.engine.automaton trust.atCaret r

theorem Regular.trusts {holds : PredicateCall → Prop} (hq : q.Regular holds) :
    q.Trusts (.only holds) (FollowSets.Surveyed q.engine.automaton holds) where
  toRegular := hq
  weaker _ := id
  finds := finds_surveyed hq.confirms
  sound rule r sets hr surveyed := by
    obtain ⟨_, _, _, confirms, found⟩ := surveyed
    exact FollowSets.ofRule_sound hr hq.inPlace hq.stays confirms found

/-! ## Trails -/

/-- A run from `c` at position `i` to `d` at position `j`. What holds only at the caret is passed
behind all tokens, if the run ends there. -/
def Trail (q : Request) (trust : Trust) (c : Config) (i : Nat) (d : Config) (j : Nat) : Prop :=
  ∃ u m, Run q.engine.automaton trust.holds c u m ∧ Run q.engine.automaton trust.atCaret m [] d ∧
    q.Reads i u j ∧ (m = d ∨ q.atCaret j = true)

namespace Trail

variable {c d e : Config} {i j k : Nat}

theorem of_run {u : List Symbol} (run : Run q.engine.automaton trust.holds c u d)
    (reads : q.Reads i u j) : q.Trail trust c i d j :=
  ⟨u, d, run, .refl d, reads, .inl rfl⟩

theorem refl (inside : i ≤ q.word.length) : q.Trail trust c i c i := .of_run (.refl c) (.refl inside)

theorem single (step : Step q.engine.automaton trust.holds c [] d) (inside : i ≤ q.word.length) :
    q.Trail trust c i d i :=
  .of_run (.single step) (.refl inside)

/-- At the caret a run may pass all that holds there. -/
theorem of_atCaret (run : Run q.engine.automaton trust.atCaret c [] d) (hc : q.atCaret i = true)
    (inside : i ≤ q.word.length) : q.Trail trust c i d i :=
  ⟨[], c, .refl c, run, .refl inside, .inr hc⟩

theorem le (h : q.Trail trust c i d j) : j ≤ q.word.length := by
  obtain ⟨u, m, -, -, reads, -⟩ := h
  exact reads.2.2

theorem trans (weaker : ∀ call, trust.holds call → trust.atCaret call) (h : q.Trail trust c i d j)
    (h' : q.Trail trust d j e k) : q.Trail trust c i e k := by
  obtain ⟨u, m, run, rest, reads, early⟩ := h
  obtain ⟨u', m', run', rest', reads', early'⟩ := h'
  rcases early with rfl | hc
  · exact ⟨u ++ u', m', run.trans run', rest', reads.trans reads', early'⟩
  · -- Nothing is read from the caret on, so the second run belongs behind the tokens of the first.
    cases reads'.eq_nil hc
    have reads := reads.trans reads'
    rw [List.append_nil] at reads
    refine ⟨u, m, run, rest.trans ((run'.mono weaker).trans rest'), reads, .inr ?_⟩
    rw [atCaret_iff] at hc ⊢
    exact Nat.le_trans hc reads'.2.1

theorem lift (h : q.Trail trust c i d j) (below : List Nat) :
    q.Trail trust ⟨c.state, c.stack ++ below⟩ i ⟨d.state, d.stack ++ below⟩ j := by
  obtain ⟨u, m, run, rest, reads, early⟩ := h
  refine ⟨u, _, run.lift below, rest.lift below, reads, early.imp_left fun same => ?_⟩
  rw [same]

/-- All in all a trail is a run that passes what holds at the caret. -/
theorem run (weaker : ∀ call, trust.holds call → trust.atCaret call) (h : q.Trail trust c i d j) :
    ∃ u, Run q.engine.automaton trust.atCaret c u d ∧ q.Reads i u j := by
  obtain ⟨u, m, run, rest, reads, -⟩ := h
  have whole := (run.mono weaker).trans rest
  rw [List.append_nil] at whole
  exact ⟨u, whole, reads⟩

end Trail

/-- A run within one rule leads from `n` at position `i` to a visit. -/
def Passes (q : Request) (trust : Trust) (n i : Nat) (v : Visit) : Prop :=
  q.Trail trust ⟨n, []⟩ i ⟨v.state, []⟩ v.index

/-- The entered rule can end at a position. -/
def Derives (q : Request) (trust : Trust) (e : RuleEntry) (stop : Nat) : Prop :=
  ∃ (r : Rule) (n : Nat), q.engine.automaton.rules[e.rule]? = some r ∧
    q.engine.automaton.IsStop n ∧ q.Passes trust r.start e.index ⟨n, stop⟩

theorem Passes.le {n i : Nat} {v : Visit} (h : q.Passes trust n i v) : v.index ≤ q.word.length :=
  Trail.le h

theorem Passes.of_call (weaker : ∀ call, trust.holds call → trust.atCaret call)
    {n i j rule follow stop : Nat} {r : Rule}
    (hc : .call rule follow ∈ q.engine.automaton.transitionsAt n)
    (hr : q.engine.automaton.rules[rule]? = some r) (hstop : q.engine.automaton.IsStop stop)
    (inside : i ≤ q.word.length) (body : q.Passes trust r.start i ⟨stop, j⟩) :
    q.Passes trust n i ⟨follow, j⟩ := by
  have enter : q.Trail trust ⟨n, []⟩ i ⟨r.start, [follow]⟩ i := .single (.call hc hr) inside
  have leave : q.Trail trust ⟨stop, [follow]⟩ j ⟨follow, []⟩ j := .single (.pop hstop) body.le
  exact (enter.trans weaker (body.lift [follow])).trans weaker leave

/-- A run from the state `start` over the first tokens leads to a visit and has the rules open. -/
def Reaches (q : Request) (trust : Trust) (start : Nat) (rules : List Nat) (v : Visit) : Prop :=
  ∃ stack, q.Trail trust ⟨start, []⟩ 0 ⟨v.state, stack⟩ v.index ∧
    q.engine.automaton.activeRules ⟨v.state, stack⟩ = rules

/-- A run from the state `start` over the tokens before the caret comes to a configuration. -/
def ComesTo (q : Request) (trust : Trust) (start : Nat) (c : Config) : Prop :=
  ∃ m, Run q.engine.automaton trust.holds ⟨start, []⟩ q.word m ∧
    Run q.engine.automaton trust.atCaret m [] c

/-- The token type can follow where no preferred rule is open. -/
def Shows (q : Request) (trust : Trust) (start : Nat) (x : Symbol) : Prop :=
  x ≠ Symbol.nothing ∧ x ∉ q.engine.ignored ∧
    ∃ n stack, q.ComesTo trust start ⟨n, stack⟩ ∧ q.engine.automaton.Offers n x ∧
      Candidates.outermost? q.engine.preferred (q.engine.automaton.activeRules ⟨n, stack⟩) = none

/-- The rule is the outermost preferred one that is open after a run from the state `start` over the
tokens before the caret. -/
def Heads (q : Request) (trust : Trust) (start : Nat) (rule : Nat) : Prop :=
  ∃ n stack, q.ComesTo trust start ⟨n, stack⟩ ∧
    Candidates.outermost? q.engine.preferred (q.engine.automaton.activeRules ⟨n, stack⟩) = some rule

/-- Everything a session has stored, remembered and recorded is real. -/
structure Grounded (q : Request) (trust : Trust) (truth : Rule → FollowSets → Prop) (start : Nat)
    (s : Session) : Prop where
  cache : s.cache.Keeps q.engine.automaton q.engine.identity truth
  memo : ∀ e ends, s.memo.lookup e = some ends → ∀ stop ∈ ends, q.Derives trust e stop
  tokens : ∀ x ∈ s.candidates.tokens, q.Shows trust start x
  rules : ∀ p ∈ s.candidates.rules, ∃ rule : Nat, p = rule ∧ q.Heads trust start rule

theorem Grounded.count (count : Nat) (h : q.Grounded trust truth start s) :
    q.Grounded trust truth start { s with statesProcessed := count } :=
  ⟨h.cache, h.memo, h.tokens, h.rules⟩

theorem callStack_cons (frame : Frame) (frames : List Frame) :
    callStack (frame :: frames) = callStack frames ++ [frame.entry.rule] := by
  simp [callStack]

/-- Whatever is reached, all that runs come to from there is reached, below the rules that they
open. -/
def Traces (q : Request) (trust : Trust) (reach : List Nat → Visit → Prop) : Prop :=
  ∀ (rules path : List Nat) (v w : Visit) (stack : List Nat), reach rules v →
    q.Trail trust ⟨v.state, []⟩ v.index ⟨w.state, stack⟩ w.index →
    q.engine.automaton.activeRules ⟨w.state, stack⟩ =
      q.engine.automaton.activeRules ⟨v.state, []⟩ ++ path →
    reach (rules ++ path) w

section
variable {reach : List Nat → Visit → Prop} {rules path : List Nat} {v : Visit}

theorem Traces.passes (h : q.Traces trust reach) (hq : q.Trusts trust truth)
    {n i : Nat} (hn : reach rules ⟨n, i⟩) (hv : q.Passes trust n i v) : reach rules v := by
  obtain ⟨u, run, -⟩ := Trail.run hq.weaker hv
  have active := activeRules_congr (hq.stays.owner?_path (run_iff_path.mp run)) []
  have reached := h rules [] ⟨n, i⟩ v [] hn hv (by rw [active, List.append_nil])
  rwa [List.append_nil] at reached

theorem Traces.call (h : q.Traces trust reach) (hq : q.Trusts trust truth) (hv : reach rules v)
    (inside : v.index ≤ q.word.length) {rule follow : Nat} {r : Rule}
    (hc : .call rule follow ∈ q.engine.automaton.transitionsAt v.state)
    (hr : q.engine.automaton.rules[rule]? = some r) :
    reach (rules ++ [rule]) ⟨r.start, v.index⟩ :=
  h rules [rule] v ⟨r.start, v.index⟩ [follow] hv (.single (.call hc hr) inside)
    (activeRules_call hq.stays hq.inPlace hc hr [])

theorem traces_reaches (hq : q.Trusts trust truth) (start : Nat) :
    q.Traces trust (q.Reaches trust start) := by
  rintro rules path v w stack ⟨below, first, here⟩ further active
  have base := activeRules_append (a := q.engine.automaton) v.state [] below
  rw [List.nil_append, here] at base
  refine ⟨stack ++ below, first.trans hq.weaker (further.lift below), ?_⟩
  rw [activeRules_append, active, ← List.append_assoc, ← base]

theorem Reaches.le (h : q.Reaches trust start rules v) : v.index ≤ q.word.length := by
  obtain ⟨stack, trail, -⟩ := h
  exact trail.le

theorem Reaches.comesTo (h : q.Reaches trust start rules v) (hc : q.atCaret v.index = true) :
    ∃ stack, q.ComesTo trust start ⟨v.state, stack⟩ ∧
      q.engine.automaton.activeRules ⟨v.state, stack⟩ = rules := by
  obtain ⟨stack, ⟨u, m, run, rest, reads, -⟩, active⟩ := h
  exact ⟨stack, ⟨m, reads.eq_word hc ▸ run, rest⟩, active⟩

theorem Reaches.shows (h : q.Reaches trust start rules v) (hc : q.atCaret v.index = true)
    {label : IntervalSet} {x : Symbol} (hn : q.engine.automaton.Offers v.state x)
    (hx : Candidates.Admits q.engine label x)
    (free : Candidates.outermost? q.engine.preferred rules = none) : q.Shows trust start x := by
  obtain ⟨stack, comes, active⟩ := h.comesTo hc
  exact ⟨hx.2.1, hx.2.2, v.state, stack, comes, hn, active ▸ free⟩

theorem Reaches.heads (h : q.Reaches trust start rules v) (hc : q.atCaret v.index = true)
    {rule : Nat} (outer : Candidates.outermost? q.engine.preferred rules = some rule) :
    q.Heads trust start rule := by
  obtain ⟨stack, comes, active⟩ := h.comesTo hc
  exact ⟨v.state, stack, comes, active ▸ outer⟩

end

/-! ## Walks -/

theorem Taken.passes {v : Visit} (hq : q.Trusts trust truth) {t : Transition} {new : List Visit}
    {called : Nat → List Nat → Session → Prop}
    (hcalled : ∀ rule ends s', called rule ends s' →
      ∀ stop ∈ ends, q.Derives trust ⟨rule, v.index⟩ stop)
    (hv : v.index ≤ q.word.length) (ht : t ∈ q.engine.automaton.transitionsAt v.state)
    (h : Taken q frames v.index called s t new s') :
    ∀ w ∈ new, q.Passes trust v.state v.index w := by
  intro w hw
  cases h with
  | @call rule follow ends _ hends =>
    obtain ⟨stop, hstop, rfl⟩ := List.mem_map.mp hw
    obtain ⟨r, n, hr, hn, body⟩ := hcalled rule ends _ hends stop (List.mem_reverse.mp hstop)
    exact .of_call hq.weaker ht hr hn hv body
  | @predicate target rule number answer asked hans =>
    cases answer with
    | false => cases hw
    | true =>
      cases List.mem_singleton.mp hw
      exact .single (.move (.predicate ht (hq.confirms _ _ hans))) hv
  | epsilon =>
    cases List.mem_singleton.mp hw
    exact .single (.move (.epsilon ht)) hv
  | wildcard hc =>
    cases List.mem_singleton.mp hw
    exact .of_run (.single (.move (.wildcard ht _))) (.token hc)
  | symbol hc htarget hl hx =>
    cases List.mem_singleton.mp hw
    exact .of_run (.single (.move (.symbol ht htarget hl (IntervalSet.mem_of_contains hx)))) (.token hc)
  | caret | refused => cases hw

theorem Taken.grounded {v : Visit} {t : Transition} {new : List Visit}
    {called : Nat → List Nat → Session → Prop}
    (hcalled : ∀ rule ends s', called rule ends s' → q.Grounded trust truth start s')
    (hv : q.Reaches trust start (callStack frames) v)
    (ht : t ∈ q.engine.automaton.transitionsAt v.state)
    (hs : q.Grounded trust truth start s) (h : Taken q frames v.index called s t new s') :
    q.Grounded trust truth start s' := by
  cases h with
  | call hends => exact hcalled _ _ _ hends
  | predicate => exact ⟨hs.cache, hs.memo, hs.tokens, hs.rules⟩
  | wildcard | symbol | refused => exact hs
  | epsilon =>
    by_cases hc : q.atCaret v.index = true
    · rw [if_pos hc]
      refine ⟨hs.cache, hs.memo, fun x hx => ?_, fun p hp => ?_⟩
      · rw [Candidates.tokens_addOutermost] at hx
        exact hs.tokens x hx
      · rcases Candidates.mem_rules_addOutermost hp with hp | ⟨rule, hp, outer⟩
        · exact hs.rules p hp
        · rw [List.append_nil] at outer
          exact ⟨rule, hp, hv.heads hc outer⟩
    · rw [if_neg hc]
      exact hs
  | caret hc hl _ hd =>
    refine ⟨hs.cache, hs.memo, fun x hx => ?_, fun p hp => ?_⟩
    · rcases Candidates.mem_tokens_addBelow hd hx with hx | ⟨hx, free⟩
      · exact hs.tokens x hx
      · rw [List.append_nil] at free
        exact hv.shows hc ⟨t, ht, _, hl, hx.1⟩ hx free
    · rcases Candidates.mem_rules_addBelow hd hp with hp | ⟨rule, hp, outer⟩
      · exact hs.rules p hp
      · rw [List.append_nil] at outer
        exact ⟨rule, hp, hv.heads hc outer⟩

/-- A walk of a rule from an entry stays in the rule: the ends are those of the rule, and a run
within the rule leads to every pending visit. -/
structure Along (q : Request) (trust : Trust) (e : RuleEntry) (r : Rule) (ends : List Nat)
    (pending : List Visit) : Prop where
  ends : ∀ stop ∈ ends, q.Derives trust e stop
  pending : ∀ w ∈ pending, q.Passes trust r.start e.index w

section
variable {e : RuleEntry} {r : Rule} {ends : List Nat} {v : Visit} {pending : List Visit}

theorem along_start (inside : e.index ≤ q.word.length) :
    q.Along trust e r [] [⟨r.start, e.index⟩] := by
  constructor
  · simp
  · rw [List.forall_mem_singleton]
    exact Trail.refl inside

theorem Along.drop (h : q.Along trust e r ends (v :: pending)) : q.Along trust e r ends pending :=
  ⟨h.ends, fun w hw => h.pending w (List.mem_cons_of_mem _ hw)⟩

theorem Along.here (h : q.Along trust e r ends (v :: pending)) :
    q.Passes trust r.start e.index v :=
  h.pending v List.mem_cons_self

theorem Along.stop (hr : q.engine.automaton.rules[e.rule]? = some r)
    (hstop : q.engine.automaton.IsStop v.state) (h : q.Along trust e r ends (v :: pending)) :
    q.Along trust e r (insertAscending v.index ends) pending := by
  refine ⟨fun stop hm => ?_, h.drop.pending⟩
  rcases mem_insertAscending.mp hm with rfl | hm
  · exact ⟨r, v.state, hr, hstop, h.here⟩
  · exact h.ends stop hm

theorem Along.take (hq : q.Trusts trust truth) (hv : q.Passes trust r.start e.index v)
    {new : List Visit} (passes : ∀ w ∈ new, q.Passes trust v.state v.index w)
    (h : q.Along trust e r ends pending) : q.Along trust e r ends (new ++ pending) := by
  refine ⟨h.ends, fun w hw => ?_⟩
  rcases List.mem_append.mp hw with hw | hw
  · exact Trail.trans hq.weaker hv (passes w hw)
  · exact h.pending w hw

end

structure WalkSound (q : Request) (trust : Trust) (truth : Rule → FollowSets → Prop) (start : Nat)
    (e : RuleEntry) (r : Rule) (ends : List Nat) (pending : List Visit) (s : Session) : Prop where
  session : q.Grounded trust truth start s
  along : q.Along trust e r ends pending

def EnterSound (q : Request) (trust : Trust) (truth : Rule → FollowSets → Prop) (start : Nat)
    (e : RuleEntry) (ends : List Nat) (s : Session) : Prop :=
  q.Grounded trust truth start s ∧ ∀ stop ∈ ends, q.Derives trust e stop

section
variable {e : RuleEntry} {r : Rule} {ends : List Nat} {call : Nat → Nat → Search (List Nat)}

theorem WalkSound.takeAll (hq : q.Trusts trust truth)
    (reached : q.Reaches trust start (callStack frames) ⟨r.start, e.index⟩)
    (hcall : ∀ rule place s, q.Grounded trust truth start s →
      (∀ r, q.engine.automaton.rules[rule]? = some r →
        q.Reaches trust start (callStack frames ++ [rule]) ⟨r.start, place⟩) →
      Yields (fun _ => True) (call rule place) s (q.EnterSound trust truth start ⟨rule, place⟩))
    {v : Visit} (hv : q.Passes trust r.start e.index v) {pending : List Visit}
    (h : q.WalkSound trust truth start e r ends pending s) :
    Yields (fun _ => True) (q.takeAll call frames v.index (q.engine.automaton.transitionsAt v.state) pending) s
      (q.WalkSound trust truth start e r ends) := by
  have traces := traces_reaches hq start
  have here := traces.passes hq reached hv
  refine takeAll_yields (fun _ => q.WalkSound trust truth start e r ends)
    (fun t ht _ pending s h => ?_) h
  refine (take_yields (fun rule => q.EnterSound trust truth start ⟨rule, v.index⟩)
    (.inl fun _ => trivial) (.inl trivial) pending ?_).mono ?_
  · rintro rule follow rfl
    exact hcall rule v.index s h.session fun r hr => traces.call hq here hv.le ht hr
  · rintro _ s' ⟨new, rfl, taken⟩
    have passes := taken.passes hq (fun _ _ _ h => h.2) hv.le ht
    exact ⟨taken.grounded (fun _ _ _ h => h.1) here ht h.session, h.along.take hq hv passes⟩

theorem walk_sound (hq : q.Trusts trust truth) (hr : q.engine.automaton.rules[e.rule]? = some r)
    (reached : q.Reaches trust start (callStack frames) ⟨r.start, e.index⟩)
    (hcall : ∀ rule place s, q.Grounded trust truth start s →
      (∀ r, q.engine.automaton.rules[rule]? = some r →
        q.Reaches trust start (callStack frames ++ [rule]) ⟨r.start, place⟩) →
      Yields (fun _ => True) (call rule place) s (q.EnterSound trust truth start ⟨rule, place⟩))
    (hs : q.Grounded trust truth start s) :
    Yields (fun _ => True) (q.walk call frames r.start e.index) s (q.EnterSound trust truth start e) := by
  refine (walkFrom_yields (fun _ => q.WalkSound trust truth start e r) ?_ ?_ ?_
    ⟨hs, along_start reached.le⟩).mono ?_
  · exact fun expanded ends v pending s _ h => ⟨h.session, h.along.drop⟩
  · exact fun expanded ends v rest s _ hstop h => ⟨h.session.count _, h.along.stop hr hstop⟩
  · intro expanded ends v rest s _ _ h
    exact WalkSound.takeAll hq reached hcall h.along.here ⟨h.session.count _, h.along.drop⟩
  · rintro ends s' ⟨_, h⟩
    exact ⟨h.session, h.along.ends⟩

/-! ## Rules that are entered -/

structure EnterPre (q : Request) (trust : Trust) (truth : Rule → FollowSets → Prop) (start : Nat)
    (frames : List Frame) (e : RuleEntry) (s : Session) : Prop where
  session : q.Grounded trust truth start s
  reached : ∀ r, q.engine.automaton.rules[e.rule]? = some r →
    q.Reaches trust start (callStack frames ++ [e.rule]) ⟨r.start, e.index⟩
  seeds : ∀ frame ∈ frames, ∀ stop ∈ frame.seed.getD [], q.Derives trust frame.entry stop

theorem Entered.derives (hq : q.Trusts trust truth)
    (memo : ∀ ends, s.memo.lookup e = some ends → ∀ stop ∈ ends, q.Derives trust e stop)
    (seeds : ∀ frame ∈ frames, ∀ stop ∈ frame.seed.getD [], q.Derives trust frame.entry stop)
    (inside : ∀ r, q.engine.automaton.rules[e.rule]? = some r → e.index ≤ q.word.length)
    (he : Entered q truth frames e s ends s') : ∀ stop ∈ ends, q.Derives trust e stop := by
  cases he with
  | known hm => exact memo ends hm
  | @again frame _ hf =>
    have same : frame.entry = e := by simpa using List.find?_some hf
    exact same ▸ seeds frame (List.mem_of_find?_eq_some hf)
  | missing | pruned => simp
  | @caret r sets cache asked d hr hc hcache hsets hd =>
    intro stop hstop
    split at hstop
    case isTrue canEnd =>
      cases List.mem_singleton.mp hstop
      have path := (hq.sound _ r sets hr hsets).path_of_canEnd hq.positive canEnd
      obtain ⟨state, found, kind, -⟩ := state_of_shape? (hq.inPlace _ r hr).2
      exact ⟨r, r.stop, hr, ⟨state, found, kind⟩, .of_atCaret (path.run []) hc (inside r hr)⟩
    case isFalse => cases hstop

theorem Entered.sound (hq : q.Trusts trust truth) (h : q.EnterPre trust truth start frames e s)
    (he : Entered q truth frames e s ends s') : q.EnterSound trust truth start e ends s' := by
  obtain ⟨hs, reached, seeds⟩ := h
  refine ⟨?_, he.derives hq (hs.memo e) seeds fun r hr => (reached r hr).le⟩
  cases he with
  | known => exact hs
  | again => exact ⟨hs.cache, hs.memo, hs.tokens, hs.rules⟩
  | missing => exact hs
  | @caret r sets cache asked d hr hc hcache hsets hd =>
    have sound := hq.sound _ r sets hr hsets
    have below : ∀ {path n}, Met q.engine.automaton trust.atCaret r.start path n →
        q.Reaches trust start (callStack frames ++ e.rule :: path) ⟨n, e.index⟩ := by
      intro path n met
      obtain ⟨stack, run, active⟩ := met.run_active hq.stays
      have here := reached r hr
      have there := traces_reaches hq start _ path _ ⟨n, e.index⟩ stack here
        (.of_atCaret run hc here.le) active
      rwa [List.append_assoc] at there
    refine ⟨hcache, hs.memo, fun x hx => ?_, fun p hp => ?_⟩
    · rcases Candidates.mem_tokens_addFollowSets hd hx with hx | ⟨set, hset, hx, free⟩
      · exact hs.tokens x hx
      · rcases sound.sets set hset with ⟨mark, -⟩ | offered
        · -- The mark of the end is never recorded.
          rw [mark] at hx
          exact absurd (IntervalSet.mem_singleton.mp hx.1) hx.2.1
        · obtain ⟨n, met, hn⟩ := offered x hx.1
          exact (below met).shows hc hn hx free
    · rcases Candidates.mem_rules_addFollowSets hd hp with hp | ⟨rule, path, hp, hpath, outer⟩
      · exact hs.rules p hp
      · obtain ⟨n, met⟩ : ∃ n, Met q.engine.automaton trust.atCaret r.start path n := by
          rcases hpath with rfl | ⟨set, hset, rfl⟩
          · exact ⟨r.start, .of_rule hq.inPlace hr⟩
          · exact sound.paths set hset
        exact ⟨rule, hp, (below met).heads hc outer⟩
  | pruned _ _ hcache => exact ⟨hcache, hs.memo, hs.tokens, hs.rules⟩

theorem enterRule_sound (hq : q.Trusts trust truth) (h : q.EnterPre trust truth start frames e s) :
    Yields (fun _ => True) (q.enterRule frames e.rule e.index) s (q.EnterSound trust truth start e) := by
  refine enterRule_yields (q.EnterPre trust truth start)
    (fun _ e _ => q.EnterSound trust truth start e) hq.inPlace hq.finds q.permits_all
    (.inl trivial) (fun _ _ _ h => h.session.cache) (fun _ _ _ _ _ h he => he.sound hq h) ?_ h
  intro frames e s r cache asked h _ _ hr _ hcache rec
  let Real (seed : Option (List Nat)) : Prop := ∀ stop ∈ seed.getD [], q.Derives trust e stop
  refine (grow_yields (fun seed s => q.Grounded trust truth start s ∧ Real seed)
    (fun seed found s' => q.EnterSound trust truth start e found s' ∧ Real seed) ?_ ?_).mono ?_
  · rintro seed s ⟨hs, real⟩
    have reached := h.reached r hr
    rw [← callStack_cons ⟨e, seed⟩] at reached
    refine (walk_sound hq hr reached ?_ hs).mono ?_
    · intro callee place s hs reached
      refine rec seed callee place s ⟨hs, reached, ?_⟩
      rw [List.forall_mem_cons]
      exact ⟨real, h.seeds⟩
    · rintro found s' ⟨hs', hfound⟩
      refine ⟨⟨⟨hs', hfound⟩, real⟩, ⟨hs'.cache, hs.memo, hs'.tokens, hs'.rules⟩, ?_⟩
      intro stop hstop
      exact (mem_unionEnds.mp hstop).elim (hfound stop) (real stop)
  · exact ⟨⟨hcache, h.session.memo, h.session.tokens, h.session.rules⟩, by simp [Real]⟩
  · rintro ends s' ⟨seed, found, ⟨⟨hs', hfound⟩, real⟩, last⟩
    have hends : ∀ stop ∈ ends, q.Derives trust e stop := by
      split at last
      · obtain ⟨rfl, -⟩ := last
        exact fun stop hstop => (mem_unionEnds.mp hstop).elim (hfound stop) (real stop)
      · exact last ▸ hfound
    refine ⟨⟨hs'.cache, fun e' ends' hm => ?_, hs'.tokens, hs'.rules⟩, hends⟩
    rw [List.lookup_cons] at hm
    split at hm
    case h_1 same =>
      cases hm
      exact eq_of_beq same ▸ hends
    case h_2 => exact hs'.memo e' ends' hm

theorem reaches_start (hq : q.Trusts trust truth) {rule : Nat}
    (hr : q.engine.automaton.rules[rule]? = some r) :
    q.Reaches trust r.start [rule] ⟨r.start, 0⟩ :=
  ⟨[], .refl (Nat.zero_le _), activeRules_nil (owner?_of_shape? (hq.inPlace rule r hr).1)⟩

theorem grounded_of_enterRule (hq : q.Trusts trust truth) {cache : Cache}
    (hcache : cache.Keeps q.engine.automaton q.engine.identity truth) {rule : Nat}
    (hr : q.engine.automaton.rules[rule]? = some r)
    (hs : q.enterRule [] rule 0 { cache := cache } = .ok ends s) :
    q.Grounded trust truth r.start s := by
  have reached : ∀ r', q.engine.automaton.rules[rule]? = some r' →
      q.Reaches trust r.start (callStack [] ++ [rule]) ⟨r'.start, 0⟩ := by
    intro r' hr'
    cases hr.symm.trans hr'
    exact reaches_start hq hr
  have initial : q.EnterPre trust truth r.start [] ⟨rule, 0⟩ { cache := cache } :=
    ⟨⟨hcache, by simp, by simp, by simp⟩, reached, by simp⟩
  exact ((enterRule_sound hq initial).of_ok hs).1

end

/-! ## One evaluator -/

section
variable {holds : PredicateCall → Prop} {r : Rule} {ends : List Nat}

theorem comesTo_only {c : Config} :
    q.ComesTo (.only holds) start c ↔ Run q.engine.automaton holds ⟨start, []⟩ q.word c := by
  constructor
  · rintro ⟨m, run, rest⟩
    have whole : Run q.engine.automaton holds ⟨start, []⟩ (q.word ++ []) c := run.trans rest
    rwa [List.append_nil] at whole
  · exact fun run => ⟨c, run, .refl c⟩

/-- Where the same predicates hold everywhere, a visit is reached by a run. -/
theorem Reaches.run {rules : List Nat} {v : Visit} (h : q.Reaches (.only holds) start rules v) :
    ∃ u stack, Run q.engine.automaton holds ⟨start, []⟩ u ⟨v.state, stack⟩ ∧ q.Reads 0 u v.index ∧
      q.engine.automaton.activeRules ⟨v.state, stack⟩ = rules := by
  obtain ⟨stack, trail, active⟩ := h
  obtain ⟨u, run, reads⟩ := trail.run fun _ => id
  exact ⟨u, stack, run, reads, active⟩

/-- The token type is not ignored and can come next after a run from the state `start` over the
tokens before the caret. -/
def CanFollow (q : Request) (holds : PredicateCall → Prop) (start : Nat) (x : Symbol) : Prop :=
  x ≠ Symbol.nothing ∧ x ∉ q.engine.ignored ∧
    ∃ n stack, Run q.engine.automaton holds ⟨start, []⟩ q.word ⟨n, stack⟩ ∧
      q.engine.automaton.Offers n x

structure Sound (q : Request) (holds : PredicateCall → Prop) (start : Nat) (s : Session) :
    Prop where
  tokens : ∀ x ∈ s.candidates.tokens, x ≠ Symbol.nothing ∧ x ∉ q.engine.ignored ∧
    ∃ n stack, Run q.engine.automaton holds ⟨start, []⟩ q.word ⟨n, stack⟩ ∧
      q.engine.automaton.Offers n x ∧
      Candidates.outermost? q.engine.preferred (q.engine.automaton.activeRules ⟨n, stack⟩) = none
  rules : ∀ p ∈ s.candidates.rules, ∃ rule : Nat, p = rule ∧
    ∃ n stack, Run q.engine.automaton holds ⟨start, []⟩ q.word ⟨n, stack⟩ ∧
      Candidates.outermost? q.engine.preferred (q.engine.automaton.activeRules ⟨n, stack⟩) =
        some rule

theorem sound_of_enterRule (hq : q.Regular holds) {cache : Cache}
    (hcache : cache.Faithful q.engine.automaton q.engine.identity holds) {rule : Nat}
    (hr : q.engine.automaton.rules[rule]? = some r)
    (hs : q.enterRule [] rule 0 { cache := cache } = .ok ends s) : q.Sound holds r.start s := by
  have grounded := grounded_of_enterRule hq.trusts hcache hr hs
  constructor
  · intro x hx
    obtain ⟨nothing, ignored, n, stack, comes, offers, free⟩ := grounded.tokens x hx
    exact ⟨nothing, ignored, n, stack, comesTo_only.mp comes, offers, free⟩
  · intro p hp
    obtain ⟨rule, same, n, stack, comes, outer⟩ := grounded.rules p hp
    exact ⟨rule, same, n, stack, comesTo_only.mp comes, outer⟩

theorem canFollow_of_enterRule (hq : q.Regular holds) {cache : Cache}
    (hcache : cache.Faithful q.engine.automaton q.engine.identity holds) {rule : Nat}
    (hr : q.engine.automaton.rules[rule]? = some r)
    (hs : q.enterRule [] rule 0 { cache := cache } = .ok ends s) :
    ∀ x ∈ s.candidates.tokens, q.CanFollow holds r.start x := by
  intro x hx
  obtain ⟨nothing, ignored, n, stack, run, offers, -⟩ :=
    (sound_of_enterRule hq hcache hr hs).tokens x hx
  exact ⟨nothing, ignored, n, stack, run, offers⟩

end

end Request

/-- The predicate is passed: it is answered with true, or there is nobody to ask. -/
def Evaluator.Affirms (answer : Option (PredicateCall → Except Reason Bool)) (call : PredicateCall) :
    Prop :=
  ∀ f, answer = some f → f call = .ok true

theorem Evaluator.confirms_pure (answer : Option (PredicateCall → Except Reason Bool)) :
    Confirms (answer.map Evaluator.pure) (Evaluator.Affirms answer) := by
  rintro asked call h f rfl
  simp only [Option.map_some, askPredicate, Evaluator.pure] at h
  cases hf : f call with
  | error reason =>
    rw [hf] at h
    cases h
  | ok holds =>
    rw [hf] at h
    cases h
    rfl

namespace Engine

/-- Every candidate token is not ignored, is a token type, and is offered where a run over the
tokens before the caret can come to. -/
theorem candidates_sound {engine : Engine} (assembled : engine.automaton.Assembled)
    (stays : engine.automaton.StaysInRule) (positive : engine.automaton.PositiveLabels)
    {stream : TokenStream} {caret : Int} {context : RuleContext}
    {answer : Option (PredicateCall → Except Reason Bool)} {candidates : Candidates}
    (h : (engine.collect {} stream caret context (answer.map Evaluator.pure)).result =
      .ok candidates) {t : Symbol} (ht : t ∈ candidates.tokens) :
    t ∉ engine.ignored ∧ t ≠ Symbol.nothing ∧
      ∃ (r : Rule) (window : List Token) (n : Nat) (stack : List Nat),
        engine.automaton.rule? context.rule = some r ∧
        stream.window context.start caret = .ok window ∧
        Run engine.automaton (Evaluator.Affirms answer) ⟨r.start, []⟩
          (window.dropLast.map Token.symbol) ⟨n, stack⟩ ∧
        engine.automaton.Offers n t := by
  obtain ⟨r, window, ends, s, hr, hw, hs, tokens⟩ := enterRule_of_collect h
  have regular : Request.Regular ⟨engine, window.toArray, answer.map Evaluator.pure⟩
      (Evaluator.Affirms answer) :=
    ⟨assembled.rulesInPlace, stays, positive, Evaluator.confirms_pure answer⟩
  rw [tokens] at ht
  obtain ⟨nothing, ignored, n, stack, run, offers⟩ :=
    Request.canFollow_of_enterRule regular Cache.faithful_empty (rules_of_rule? hr) hs t ht
  exact ⟨ignored, nothing, r, window, n, stack, hr, hw, by simpa [Request.word] using run, offers⟩

/-- A rule behind a predicate: any token, and then one that is not of the third type. -/
def guarded : Engine where
  automaton := (((((Automaton.empty.addRule "r").addState 0 .basic).addState 0 .basic).connect 0
    (.predicate 2 0 7)).connect 2 (.wildcard 3)).connect 3 (.notSet 1 (some (.singleton 3)))
  identity := .automaton 0
  preferred := []
  ignored := [2]

/-- Only the predicate with number seven holds. -/
def seventh (call : PredicateCall) : Except Reason Bool := .ok (call.index == 7)

theorem candidates_sound_guarded :
    ∃ candidates n stack,
      (guarded.collect {} (.ofTokens [{ symbol := 2 }, { symbol := 1 }]) 1 {}
        ((some seventh).map Evaluator.pure)).result = .ok candidates ∧ 1 ∈ candidates.tokens ∧
      Run guarded.automaton (Evaluator.Affirms (some seventh)) ⟨0, []⟩ [2] ⟨n, stack⟩ ∧
      guarded.automaton.Offers n 1 := by
  have assembled : guarded.automaton.Assembled := by
    simp only [guarded]
    exact .connect (.connect (.connect (.addState (.addState (.addRule .empty _) _ _) _ _) _ _)
      _ _) _ _
  have stays : guarded.automaton.StaysInRule := by
    intro n s hs t ht
    have inside : ∀ s ∈ guarded.automaton.states.toList, ∀ t ∈ s.transitions,
        guarded.automaton.states[t.next]?.map State.rule = some s.rule := by decide
    simpa using inside s (Array.mem_toList_iff.mpr (Array.mem_of_getElem? hs)) t ht
  have positive : guarded.automaton.PositiveLabels := by
    have out := transitionsAt_eq_of_map (a := guarded.automaton)
      (show _ = [[.predicate 2 0 7], [], [.wildcard 3], [.notSet 1 (some (.singleton 3))]] from rfl)
    intro n t ht
    rw [out] at ht
    match n with
    | 0 | 1 | 2 | 3 | n + 4 => simp at ht <;> subst ht <;> simp <;> decide
  obtain ⟨candidates, h, keys⟩ := exists_ok_of_toOption (show (guarded.collect {}
      (.ofTokens [{ symbol := 2 }, { symbol := 1 }]) 1 {}
      ((some seventh).map Evaluator.pure)).result.toOption.map (fun c => c.tokens.keys) =
      some [1] by decide +kernel)
  obtain ⟨window', hw', word⟩ := exists_ok_of_toOption (show
      ((TokenStream.ofTokens [{ symbol := 2 }, { symbol := 1 }]).window 0 1).toOption.map
        (fun window => window.dropLast.map Token.symbol) = some [2] by decide +kernel)
  have offered : 1 ∈ candidates.tokens := by
    rw [← Std.TreeMap.mem_keys, keys]
    exact List.mem_singleton_self 1
  obtain ⟨-, -, r, window, n, stack, hr, hw, run, offers⟩ :=
    candidates_sound assembled stays positive h offered
  cases hw'.symm.trans hw
  cases hr
  exact ⟨candidates, n, stack, h, offered, word ▸ run, offers⟩

end Engine

end GrammarCompletion
