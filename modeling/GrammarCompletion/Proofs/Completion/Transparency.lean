import GrammarCompletion.Proofs.Completion.Modular

/-!
# A cache does not show

Two requests that differ in their caches alone go through the same steps as long as both caches hold
nothing but what a survey finds. `Transparent` compares the two sessions of a search: it is kept by
every way of putting searches together, so it holds of a whole request, and then of a sequence of
requests that share a cache.

The comparison also bounds what the second session adds to its cache: nothing, if that cache already
has what the first session ends with. So a request that is repeated leaves the cache alone.
-/

namespace GrammarCompletion

/-- The evaluator has one answer for each question, whatever was asked before. -/
def Steady (evaluator : Option Evaluator) : Prop :=
  ∀ call, ∃ answer, ∀ asked, (askPredicate evaluator asked call).1 = .ok answer

theorem Steady.unfailing {evaluator : Option Evaluator} (h : Steady evaluator) :
    Unfailing evaluator := by
  intro asked call
  obtain ⟨answer, ha⟩ := h call
  exact ⟨answer, ha asked⟩

/-! ## Surveys -/

namespace Survey

variable {c : Scope}

theorem Scope.perform_asked (he : Steady c.evaluator) (f : Findings) (task : Task)
    (before : List PredicateCall) :
    ∃ after, c.perform { f with asked := before } task =
      ((c.perform f task).1, { (c.perform f task).2 with asked := after }) := by
  cases task with
  | visit n path =>
    simp only [Scope.perform]
    refine ⟨before, ?_⟩
    repeat' split
    all_goals rfl
  | take t path =>
    cases t with
    | predicate target rule index =>
      obtain ⟨answer, ha⟩ := he ⟨rule, index⟩
      have run : ∀ asked, c.perform { f with asked := asked } (.take (.predicate target rule index)
          path) = (.ok (if answer then [.visit target path] else []),
            { f with asked := (askPredicate c.evaluator asked ⟨rule, index⟩).2 }) := by
        intro asked
        have := ha asked
        simp only [Scope.perform]
        split
        case h_1 hp =>
          rw [hp] at this
          cases this
        case h_2 hp =>
          rw [hp] at this
          cases this
          rw [hp]
      exact ⟨_, (run before).trans (by rw [run f.asked])⟩
    | call rule follow =>
      simp only [Scope.perform]
      refine ⟨before, ?_⟩
      repeat' split
      all_goals rfl
    | epsilon | wildcard => exact ⟨before, rfl⟩
    | atom | set | notSet =>
      simp only [Scope.perform, Scope.recordSymbol]
      refine ⟨before, ?_⟩
      repeat' split
      all_goals rfl
  | resume rule state path => exact ⟨before, rfl⟩

theorem Scope.run_asked (he : Steady c.evaluator) (todo : List Task) (f : Findings)
    (before : List PredicateCall) :
    ∃ after, c.run todo { f with asked := before } =
      ((c.run todo f).1, { (c.run todo f).2 with asked := after }) := by
  fun_induction Scope.run c todo f generalizing before with
  | case1 f => exact ⟨before, by rw [Scope.run]⟩
  | case2 f task rest failure g hp =>
    obtain ⟨after, ha⟩ := c.perform_asked he f task before
    rw [hp] at ha
    refine ⟨after, ?_⟩
    rw [Scope.run]
    split
    case h_1 hp' =>
      cases ha.symm.trans hp'
      rfl
    case h_2 hp' => cases ha.symm.trans hp'
  | case3 f task rest new g hp ih =>
    obtain ⟨between, hb⟩ := c.perform_asked he f task before
    rw [hp] at hb
    obtain ⟨after, ha⟩ := ih between
    refine ⟨after, ?_⟩
    rw [Scope.run]
    split
    case h_1 hp' => cases hb.symm.trans hp'
    case h_2 hp' =>
      cases hb.symm.trans hp'
      exact ha

end Survey

theorem FollowSets.result_ofRule_asked {evaluator : Option Evaluator} (he : Steady evaluator)
    (a : Automaton) (ignored : List Symbol) (asked : List PredicateCall) (r : Rule) :
    (ofRule a ignored evaluator asked r).result = (ofRule a ignored evaluator [] r).result := by
  obtain ⟨after, h⟩ := Survey.Scope.run_asked (c := ⟨a, ignored, evaluator, r.stop⟩) he
    [.visit r.start []] {} asked
  simp only [ofRule, h]

/-! ## Caches -/

namespace Cache

def Truthful (truth : CacheKey → FollowSets → Prop) (c : Cache) : Prop :=
  ∀ key sets, c.find? key = some sets → truth key sets

def Within (c d : Cache) : Prop := ∀ key, (c.find? key).isSome → (d.find? key).isSome

variable {truth : CacheKey → FollowSets → Prop} {c d : Cache} {key : CacheKey} {sets : FollowSets}

theorem truthful_empty : Truthful truth {} := by
  intro key sets h
  cases h

theorem Within.refl (c : Cache) : c.Within c := fun _ h => h

theorem Within.trans {e : Cache} (h : c.Within d) (h' : d.Within e) : c.Within e :=
  fun key hk => h' key (h key hk)

theorem find?_store (other : CacheKey) :
    (c.store key sets).find? other = if other = key then some sets else c.find? other := by
  by_cases h : other = key
  · simp [find?, store, h]
  · have differ : (other == key) = false := by simpa using h
    simp [find?, store, List.lookup_cons, differ, h]

theorem Truthful.store (h : c.Truthful truth) (hs : truth key sets) :
    (c.store key sets).Truthful truth := by
  intro other sets' found
  rw [find?_store] at found
  split at found
  case isTrue same =>
    cases found
    exact same ▸ hs
  case isFalse => exact h other sets' found

theorem within_store : c.Within (c.store key sets) := by
  intro other h
  rw [find?_store]
  split
  · rfl
  · exact h

end Cache

/-! ## Sessions side by side -/

/-- Sessions that differ in their caches and in what they have asked only. -/
structure Session.Alike (s t : Session) : Prop where
  memo : s.memo = t.memo
  reentered : s.reentered = t.reentered
  candidates : s.candidates = t.candidates
  statesProcessed : s.statesProcessed = t.statesProcessed

/-- The sessions `s` and `t` go on to `s'` and `t'` side by side; `t` stores nothing that it had
no need to. -/
structure SideBySide (truth : CacheKey → FollowSets → Prop) (s t s' t' : Session) : Prop where
  alike : s'.Alike t'
  left : s'.cache.Truthful truth
  right : t'.cache.Truthful truth
  grows : s.cache.Within s'.cache
  needless : s'.cache.Within t.cache → t'.cache = t.cache

def Search.ended (outcome : Except Interruption α) (s : Session) :
    EStateM.Result Interruption Session α :=
  match outcome with
  | .ok v => .ok v s
  | .error reason => .error reason s

/-- From sessions that are alike and have truthful caches the search has one outcome and leaves
sessions that are. -/
def Transparent (truth : CacheKey → FollowSets → Prop) (x : Search α) : Prop :=
  ∀ s t : Session, s.Alike t → s.cache.Truthful truth → t.cache.Truthful truth →
    ∃ outcome s' t', x s = Search.ended outcome s' ∧ x t = Search.ended outcome t' ∧
      SideBySide truth s t s' t'

namespace Transparent

variable {truth : CacheKey → FollowSets → Prop} {x : Search α} {f : α → Search β}

theorem pure (v : α) : Transparent truth (pure v : Search α) :=
  fun s t alike left right => ⟨.ok v, s, t, rfl, rfl, alike, left, right, .refl _, fun _ => rfl⟩

theorem bind (hx : Transparent truth x) (hf : ∀ v, Transparent truth (f v)) :
    Transparent truth (x >>= f) := by
  intro s t alike left right
  obtain ⟨outcome, s₁, t₁, hs, ht, first⟩ := hx s t alike left right
  cases outcome with
  | error reason =>
    refine ⟨.error reason, s₁, t₁, ?_, ?_, first⟩
    · simp only [Bind.bind, EStateM.bind, hs, Search.ended]
    · simp only [Bind.bind, EStateM.bind, ht, Search.ended]
  | ok v =>
    obtain ⟨last, s₂, t₂, hs', ht', second⟩ := hf v s₁ t₁ first.alike first.left first.right
    refine ⟨last, s₂, t₂, ?_, ?_, second.alike, second.left, second.right,
      first.grows.trans second.grows, fun within => ?_⟩
    · simpa only [Bind.bind, EStateM.bind, hs, Search.ended] using hs'
    · simpa only [Bind.bind, EStateM.bind, ht, Search.ended] using ht'
    · have same := first.needless (second.grows.trans within)
      rw [← same] at within ⊢
      exact second.needless within

/-- A search may look at what sessions that are alike have in common. -/
theorem get_bind {f : Session → Search α} (same : ∀ s t, s.Alike t → f s = f t)
    (hf : ∀ s, Transparent truth (f s)) : Transparent truth (get >>= f) := by
  intro s t alike left right
  have h := hf s s t alike left right
  obtain ⟨outcome, s', t', hs, ht, beside⟩ := h
  rw [same s t alike] at ht
  exact ⟨outcome, s', t', hs, ht, beside⟩

theorem modify {change : Session → Session} (cache : ∀ s, (change s).cache = s.cache)
    (keeps : ∀ s t, s.Alike t → (change s).Alike (change t)) :
    Transparent truth (modify change : Search PUnit) := by
  intro s t alike left right
  refine ⟨.ok ⟨⟩, change s, change t, rfl, rfl, keeps s t alike, ?_, ?_, ?_, fun _ => cache t⟩
  · rw [cache]
    exact left
  · rw [cache]
    exact right
  · rw [cache]
    exact .refl _

theorem record (change : Candidates → Except Overlong Candidates) :
    Transparent truth (Request.record change) := by
  intro s t alike left right
  rw [Request.record_apply, Request.record_apply, ← alike.candidates]
  cases change s.candidates with
  | ok c =>
    exact ⟨.ok ⟨⟩, { s with candidates := c }, { t with candidates := c }, rfl, rfl,
      ⟨alike.memo, alike.reentered, rfl, alike.statesProcessed⟩, left, right, .refl _, fun _ => rfl⟩
  | error fault =>
    exact ⟨.error .overlong, s, t, rfl, rfl, alike, left, right, .refl _, fun _ => rfl⟩

end Transparent

/-! ## The parts of a request -/

/-- For each key there is one truth, and the surveys of a request find it. -/
structure Request.Reliable (truth : CacheKey → FollowSets → Prop) (q : Request) : Prop where
  unique : ∀ key sets sets', truth key sets → truth key sets' → sets = sets'
  surveyed : ∀ (rule : Nat) (r : Rule) (sets : FollowSets),
    q.engine.automaton.rules[rule]? = some r →
    (FollowSets.ofRule q.engine.automaton q.engine.ignored q.evaluator [] r).result = .ok sets →
    truth (Session.keyOf q r) sets
  steady : Steady q.evaluator

namespace Request

variable {truth : CacheKey → FollowSets → Prop} {q : Request}

/-- Looking for follow sets: the true ones are found in the cache or else by a survey. -/
theorem Reliable.followSets_eq (hq : Reliable truth q) {rule : Nat} {r : Rule}
    (hr : q.engine.automaton.rules[rule]? = some r) {s : Session}
    (hs : s.cache.Truthful truth) :
    ∃ sets s', Session.followSets q r s = .ok sets s' ∧ truth (Session.keyOf q r) sets ∧
      s'.Alike s ∧ s'.cache.Truthful truth ∧ s.cache.Within s'.cache ∧
      (s'.cache.find? (Session.keyOf q r)).isSome ∧
      ((s.cache.find? (Session.keyOf q r)).isSome → s'.cache = s.cache) := by
  have alike : ∀ cache asked, Session.Alike { s with cache := cache, asked := asked } s :=
    fun _ _ => ⟨rfl, rfl, rfl, rfl⟩
  cases found : s.cache.find? (Session.keyOf q r) with
  | some sets =>
    refine ⟨sets, s, ?_, hs _ _ found, alike s.cache s.asked, hs, .refl _, by simp [found],
      fun _ => rfl⟩
    unfold Session.followSets
    rw [Search.get_bind]
    simp only [found]
    rfl
  | none =>
    obtain ⟨sets, hsets⟩ := FollowSets.ofRule_ok_of_unfailing hq.steady.unfailing
      q.engine.automaton q.engine.ignored s.asked r
    have true_sets : truth (Session.keyOf q r) sets := by
      apply hq.surveyed rule r sets hr
      rw [← FollowSets.result_ofRule_asked hq.steady _ _ s.asked]
      exact hsets
    let outcome := FollowSets.ofRule q.engine.automaton q.engine.ignored q.evaluator s.asked r
    let cache := (s.cache.countStates outcome.visited).store (Session.keyOf q r) sets
    refine ⟨sets, { s with cache := cache, asked := outcome.asked }, ?_, true_sets, alike _ _,
      Cache.Truthful.store hs true_sets, Cache.within_store, ?_, by simp⟩
    · unfold Session.followSets
      rw [Search.get_bind]
      simp only [found, hsets]
      rfl
    · simp [cache, Cache.find?_store]

theorem Reliable.followSets (hq : Reliable truth q) {rule : Nat} {r : Rule}
    (hr : q.engine.automaton.rules[rule]? = some r) :
    Transparent truth (Session.followSets q r) := by
  intro s t alike left right
  obtain ⟨sets, s', hs, hsets, likeS, left', growsS, stored, -⟩ := hq.followSets_eq hr left
  obtain ⟨sets', t', ht, hsets', likeT, right', -, -, needless⟩ := hq.followSets_eq hr right
  cases hq.unique _ _ _ hsets hsets'
  refine ⟨.ok sets, s', t', hs, ht, ?_, left', right', growsS, fun within => ?_⟩
  · exact ⟨likeS.memo.trans (alike.memo.trans likeT.memo.symm),
      likeS.reentered.trans (alike.reentered.trans likeT.reentered.symm),
      likeS.candidates.trans (alike.candidates.trans likeT.candidates.symm),
      likeS.statesProcessed.trans (alike.statesProcessed.trans likeT.statesProcessed.symm)⟩
  · exact needless (within _ stored)

theorem Reliable.ask (hq : Reliable truth q) (call : PredicateCall) :
    Transparent truth (Session.ask q call) := by
  intro s t alike left right
  obtain ⟨answer, ha⟩ := hq.steady call
  have run : ∀ s : Session, Session.ask q call s =
      .ok answer { s with asked := (askPredicate q.evaluator s.asked call).2 } := by
    intro s
    have first := ha s.asked
    unfold Session.ask
    rw [Search.get_bind]
    cases outcome : askPredicate q.evaluator s.asked call with
    | mk result asked =>
      rw [outcome] at first
      obtain rfl : result = .ok answer := first
      rfl
  refine ⟨.ok answer, _, _, run s, run t, ?_, left, right, .refl _, fun _ => rfl⟩
  exact ⟨alike.memo, alike.reentered, alike.candidates, alike.statesProcessed⟩

theorem Reliable.modular (hq : Reliable truth q) : q.Modular fun _ => Transparent truth where
  pure := .pure
  bind := .bind
  look same := .get_bind fun s t alike => same s t alike.memo alike.reentered
  adjust memo reentered statesProcessed :=
    .modify (fun _ => rfl) fun _ _ alike => ⟨congrArg memo alike.memo,
      congrArg reentered alike.reentered, alike.candidates,
      congrArg statesProcessed alike.statesProcessed⟩
  record := .record
  ask := hq.ask
  followSets := hq.followSets

theorem Reliable.enterRule (hq : Reliable truth q) (frames : List Frame) (rule index : Nat) :
    Transparent truth (q.enterRule frames rule index) :=
  hq.modular.enterRule frames rule index

end Request

/-! ## Sequences of requests -/

namespace Engine

structure Call where
  engine : Engine
  stream : TokenStream
  caret : Int
  context : RuleContext

namespace Call

def collect (call : Call) (evaluator : Option Evaluator) (cache : Cache) : Collected :=
  call.engine.collect cache call.stream call.caret call.context evaluator

/-- Make requests one after the other with one cache: their results, and the cache in the end. -/
def serve (evaluator : Option Evaluator) (cache : Cache) :
    List Call → List (Except CompletionError Candidates) × Cache
  | [] => ([], cache)
  | call :: calls =>
    let answer := call.collect evaluator cache
    let rest := serve evaluator answer.cache calls
    (answer.result :: rest.1, rest.2)

/-- The follow sets that belong under a key: those of a rule of an engine with that identity. -/
def Truth (calls : List Call) (evaluator : Option Evaluator) (key : CacheKey) (sets : FollowSets) :
    Prop :=
  ∃ call ∈ calls, call.engine.identity = key.identity ∧
    ∃ (rule : Nat) (r : Rule), call.engine.automaton.rules[rule]? = some r ∧
      r.start = key.state ∧
      (FollowSets.ofRule call.engine.automaton call.engine.ignored evaluator [] r).result = .ok sets

/-- Engines that share an identity share what follow sets depend on. -/
structure Compatible (calls : List Call) : Prop where
  assembled : ∀ call ∈ calls, call.engine.automaton.Assembled
  shared : ∀ call ∈ calls, ∀ other ∈ calls, call.engine.identity = other.engine.identity →
    call.engine.automaton = other.engine.automaton ∧ call.engine.ignored = other.engine.ignored

variable {calls : List Call} {evaluator : Option Evaluator}

theorem Compatible.reliable (h : Compatible calls) (steady : Steady evaluator) {call : Call}
    (hc : call ∈ calls) (window : Array Token) :
    Request.Reliable (Truth calls evaluator) ⟨call.engine, window, evaluator⟩ where
  unique key sets sets' := by
    rintro ⟨first, hfirst, id, rule, r, hr, start, found⟩
      ⟨second, hsecond, id', rule', r', hr', start', found'⟩
    obtain ⟨automaton, ignored⟩ := h.shared first hfirst second hsecond (id.trans id'.symm)
    rw [← automaton] at hr'
    cases (h.assembled first hfirst).rulesInPlace.eq_of_start hr hr' (start.trans start'.symm)
    rw [automaton, ignored, found'] at found
    exact (Except.ok.inj found).symm
  surveyed rule r sets hr found := ⟨call, hc, rfl, rule, r, hr, rfl, found⟩
  steady := steady

/-- A request answers the same with any truthful cache, keeps it truthful and forgets nothing. With
a cache that has all it would store it stores nothing. -/
theorem Compatible.collect (h : Compatible calls) (steady : Steady evaluator) {call : Call}
    (hc : call ∈ calls) {c d : Cache} (truthful : c.Truthful (Truth calls evaluator))
    (truthful' : d.Truthful (Truth calls evaluator)) :
    (call.collect evaluator d).result = (call.collect evaluator c).result ∧
      (call.collect evaluator c).cache.Truthful (Truth calls evaluator) ∧
      c.Within (call.collect evaluator c).cache ∧
      ((call.collect evaluator c).cache.Within d → (call.collect evaluator d).cache = d) := by
  simp only [Call.collect, Engine.collect]
  cases call.engine.automaton.rule? call.context.rule with
  | none => exact ⟨rfl, truthful, .refl c, fun _ => rfl⟩
  | some r =>
    cases call.stream.window call.context.start call.caret with
    | error cause => exact ⟨rfl, truthful, .refl c, fun _ => rfl⟩
    | ok window =>
      have alike : Session.Alike { cache := c } { cache := d } := ⟨rfl, rfl, rfl, rfl⟩
      obtain ⟨outcome, s, t, hs, ht, beside⟩ := (h.reliable steady hc window.toArray).enterRule []
        call.context.rule.toNat 0 { cache := c } { cache := d } alike truthful truthful'
      simp only [EStateM.run, hs, ht]
      cases outcome with
      | ok ends =>
        simp only [Search.ended, beside.alike.candidates, beside.alike.statesProcessed]
        exact ⟨trivial, beside.left, beside.grows, beside.needless⟩
      | error reason => exact ⟨rfl, beside.left, beside.grows, beside.needless⟩

theorem Compatible.serve (h : Compatible calls) (steady : Steady evaluator) {made : List Call}
    (sub : ∀ call ∈ made, call ∈ calls) {cache : Cache}
    (truthful : cache.Truthful (Truth calls evaluator)) :
    (Call.serve evaluator cache made).1 =
        made.map (fun call => (call.collect evaluator {}).result) ∧
      (Call.serve evaluator cache made).2.Truthful (Truth calls evaluator) ∧
      cache.Within (Call.serve evaluator cache made).2 ∧
      ∀ call ∈ made, (call.collect evaluator (Call.serve evaluator cache made).2).cache =
        (Call.serve evaluator cache made).2 := by
  induction made generalizing cache with
  | nil => exact ⟨rfl, truthful, .refl cache, by simp⟩
  | cons call made ih =>
    rw [List.forall_mem_cons] at sub
    have fresh := h.collect steady sub.1 Cache.truthful_empty truthful
    obtain ⟨-, truthful', grows, -⟩ := h.collect steady sub.1 truthful truthful
    obtain ⟨results, last, rest, repeated⟩ := ih sub.2 truthful'
    refine ⟨?_, last, grows.trans rest, ?_⟩
    · simp only [Call.serve, List.map_cons, results, fresh.1]
    · rw [List.forall_mem_cons]
      exact ⟨(h.collect steady sub.1 truthful last).2.2.2 rest, repeated⟩

end Call

/-- Requests made one after the other with one cache have the results that each of them has with an
empty one, if engines of the same identity have the same automaton and ignore the same tokens, and
the evaluator is steady. Making one of them again leaves the cache as it is, its counts included. -/
theorem serve_eq_map_fresh {calls : List Call}
    (assembled : ∀ call ∈ calls, call.engine.automaton.Assembled)
    (shared : ∀ call ∈ calls, ∀ other ∈ calls, call.engine.identity = other.engine.identity →
      call.engine.automaton = other.engine.automaton ∧ call.engine.ignored = other.engine.ignored)
    {evaluator : Option Evaluator} (steady : Steady evaluator) :
    (Call.serve evaluator {} calls).1 =
        calls.map (fun call => (call.collect evaluator {}).result) ∧
      ∀ call ∈ calls, (call.collect evaluator (Call.serve evaluator {} calls).2).cache =
        (Call.serve evaluator {} calls).2 := by
  have compatible : Call.Compatible calls := ⟨assembled, shared⟩
  obtain ⟨results, -, -, repeated⟩ :=
    compatible.serve steady (fun _ => id) Cache.truthful_empty
  exact ⟨results, repeated⟩

/-- A rule that calls another one, which can be passed by a predicate or by a token. -/
def gate : Automaton :=
  (((Automaton.empty.addRule "outer").addRule "inner").connect 0 (.call 1 1)).connect 2
    (.predicate 3 1 0) |>.connect 2 (.atom 3 5)

/-- Two engines of one identity that prefer different rules, and a request for a rule that does not
exist. -/
def gateCalls : List Call :=
  [⟨⟨gate, .grammar "g", [], []⟩, .ofTokens [{ symbol := 5 }], 0, {}⟩,
    ⟨⟨gate, .grammar "g", [1], []⟩, .ofTokens [{ symbol := 5 }], 1, {}⟩,
    ⟨⟨gate, .grammar "g", [], []⟩, .ofTokens [], 0, { rule := 2 }⟩]

theorem serve_eq_map_fresh_gate :
    let evaluator : Option Evaluator := some (.pure fun _ => .ok true)
    let served := Call.serve evaluator {} gateCalls
    served.2.computations = 2 ∧
      served.1 = gateCalls.map (fun call => (call.collect evaluator {}).result) ∧
      ∀ call ∈ gateCalls, (call.collect evaluator served.2).cache.computations = 2 := by
  intro evaluator served
  have assembled : ∀ call ∈ gateCalls, call.engine.automaton.Assembled := by
    simp only [gateCalls, List.forall_mem_cons, List.not_mem_nil, false_imp_iff, implies_true,
      and_true, and_self]
    exact .connect (.connect (.connect (.addRule (.addRule .empty _) _) _ _) _ _) _ _
  have computations : served.2.computations = 2 := by decide +kernel
  have steady : Steady evaluator := fun _ => ⟨true, fun _ => rfl⟩
  obtain ⟨results, repeated⟩ := serve_eq_map_fresh assembled (by simp [gateCalls]) steady
  refine ⟨computations, results, fun call hc => ?_⟩
  rw [repeated call hc]
  exact computations

end Engine

end GrammarCompletion
