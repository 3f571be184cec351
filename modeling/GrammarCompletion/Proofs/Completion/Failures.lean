import GrammarCompletion.Proofs.Completion.Modular
import GrammarCompletion.Proofs.Token.Window

/-!
# Requests that fail

A request fails for its arguments, before anything is done, or because the evaluator fails. The
evaluator may be asked at any depth of a survey or of a walk, and with any history of questions; its
first failure ends everything, so the question that failed is the last one.

The error for it wraps what the evaluator's reason wraps. So an error that wraps the sentinel of
invalid arguments need not be about the arguments, and a walk may have been made. And where a request
comes upon a set that it cannot list, it returns neither candidates nor an error.
-/

namespace GrammarCompletion

/-! ## Questions and their answers -/

/-- The evaluator fails on a question asked after some others, newest first. -/
def Fails (evaluator : Option Evaluator) (asked : List PredicateCall) (call : PredicateCall)
    (reason : Reason) : Prop :=
  (askPredicate evaluator asked call).1 = .error ⟨call, reason⟩

def Unfailed (evaluator : Option Evaluator) (asked : List PredicateCall) : Prop :=
  ∀ later call earlier reason, asked = later ++ call :: earlier →
    ¬ Fails evaluator earlier call reason

/-- What a result tells about the questions asked for it, newest first: none has failed, or the last
one has. -/
def Tells {α : Type} (evaluator : Option Evaluator) :
    Except PredicateFailure α → List PredicateCall → Prop
  | .ok _, asked => Unfailed evaluator asked
  | .error failure, asked => ∃ earlier, asked = failure.call :: earlier ∧
      Unfailed evaluator earlier ∧ Fails evaluator earlier failure.call failure.reason

section
variable {evaluator : Option Evaluator} {asked : List PredicateCall}

theorem unfailed_nil : Unfailed evaluator [] := by
  intro later call earlier reason split
  simp at split

theorem Unfailed.cons (h : Unfailed evaluator asked) {call : PredicateCall}
    (answered : ∀ reason, ¬ Fails evaluator asked call reason) : Unfailed evaluator (call :: asked) := by
  intro later other earlier reason split
  rw [List.cons_eq_append_iff] at split
  rcases split with ⟨-, here⟩ | ⟨rest, -, there⟩
  · cases here
    exact answered reason
  · exact h rest other earlier reason there

theorem mapError_eq_error {ε ε' α : Type} {x : Except ε α} {f : ε → ε'} {e : ε'}
    (h : x.mapError f = .error e) : ∃ cause, x = .error cause ∧ f cause = e := by
  cases x with
  | ok value => cases h
  | error cause => exact ⟨cause, rfl, Except.error.inj h⟩

theorem fails_of_askPredicate {call : PredicateCall} {failure : PredicateFailure}
    (failed : (askPredicate evaluator asked call).1 = .error failure) :
    failure.call = call ∧ Fails evaluator asked call failure.reason := by
  cases evaluator with
  | none => cases failed
  | some answer =>
    have named : failure.call = call := by
      obtain ⟨reason, -, same⟩ := mapError_eq_error failed
      rw [← same]
    refine ⟨named, ?_⟩
    unfold Fails
    rw [failed, ← named]

theorem tells_askPredicate (h : Unfailed evaluator asked) (call : PredicateCall) :
    Tells evaluator (askPredicate evaluator asked call).1 (askPredicate evaluator asked call).2 := by
  cases evaluator with
  | none => exact h
  | some answer =>
    have noted : (askPredicate (some answer) asked call).2 = call :: asked := rfl
    rw [noted]
    cases found : (askPredicate (some answer) asked call).1 with
    | ok holds =>
      apply h.cons
      intro reason failed
      cases found.symm.trans failed
    | error failure =>
      obtain ⟨named, failed⟩ := fails_of_askPredicate found
      rw [← named] at failed ⊢
      exact ⟨asked, rfl, h, failed⟩

theorem Tells.map {α β : Type} {result : Except PredicateFailure α}
    (tells : Tells evaluator result asked) (f : α → β) : Tells evaluator (result.map f) asked := by
  cases result with
  | ok value => exact tells
  | error failure => exact tells

theorem Tells.eq_error {α : Type} {result : Except PredicateFailure α}
    (tells : Tells evaluator result asked) {later earlier : List PredicateCall} {call : PredicateCall}
    {reason : Reason} (split : asked = later ++ call :: earlier)
    (failed : Fails evaluator earlier call reason) : later = [] ∧ result = .error ⟨call, reason⟩ := by
  cases result with
  | ok value => exact absurd failed (tells later call earlier reason split)
  | error failure =>
    obtain ⟨before, rfl, unfailed, failed'⟩ := tells
    rw [List.cons_eq_append_iff] at split
    rcases split with ⟨rfl, here⟩ | ⟨rest, -, there⟩
    · cases here
      cases failed'.symm.trans failed
      exact ⟨rfl, rfl⟩
    · exact absurd failed (unfailed rest call earlier reason there)

theorem Tells.eq_error_of_reverse {α : Type} {result : Except PredicateFailure α}
    (tells : Tells evaluator result asked) {before after : List PredicateCall} {call : PredicateCall}
    {reason : Reason} (split : asked.reverse = before ++ call :: after)
    (failed : Fails evaluator before.reverse call reason) :
    after = [] ∧ result = .error ⟨call, reason⟩ := by
  have turned : asked = after.reverse ++ call :: before.reverse := by
    have := congrArg List.reverse split
    simpa using this
  have outcome := tells.eq_error turned failed
  simpa using outcome

/-- A result is a failure of some kind if and only if a question has failed in this way. -/
theorem Tells.error_iff {α : Type} {result : Except PredicateFailure α}
    (tells : Tells evaluator result asked) (P : Reason → Prop) :
    (∃ failure, result = .error failure ∧ P failure.reason) ↔
      ∃ before call after reason, asked.reverse = before ++ call :: after ∧
        Fails evaluator before.reverse call reason ∧ P reason := by
  constructor
  · rintro ⟨failure, rfl, kind⟩
    obtain ⟨earlier, rfl, -, failed⟩ := tells
    exact ⟨earlier.reverse, failure.call, [], failure.reason, by simp, by simpa using failed, kind⟩
  · rintro ⟨before, call, after, reason, split, failed, kind⟩
    exact ⟨_, (tells.eq_error_of_reverse split failed).2, kind⟩

end

/-! ## Surveys -/

namespace Survey

variable {c : Scope} {f : Findings}

theorem Scope.asked_recordSymbol (c : Scope) (t : Transition) (path : List Nat) (f : Findings) :
    (c.recordSymbol t path f).asked = f.asked := by
  unfold Scope.recordSymbol
  split
  · rfl
  · split <;> rfl

theorem Scope.tells_perform (h : Unfailed c.evaluator f.asked) (task : Task) :
    Tells c.evaluator (c.perform f task).1 (c.perform f task).2.asked := by
  cases task with
  | visit n path =>
    simp only [Scope.perform]
    repeat' split
    all_goals exact h
  | take t path =>
    cases t with
    | predicate target rule index =>
      have tells := tells_askPredicate h ⟨rule, index⟩
      simp only [Scope.perform]
      split
      case h_1 failed =>
        rw [failed] at tells
        exact tells
      case h_2 answered =>
        rw [answered] at tells
        exact tells
    | call rule follow =>
      simp only [Scope.perform]
      repeat' split
      all_goals exact h
    | epsilon | wildcard => exact h
    | atom | set | notSet =>
      show Unfailed c.evaluator (c.recordSymbol _ path f).asked
      rw [Scope.asked_recordSymbol]
      exact h
  | resume rule state path => exact h

theorem Scope.tells_run (todo : List Task) (h : Unfailed c.evaluator f.asked) :
    Tells c.evaluator (c.run todo f).1 (c.run todo f).2.asked := by
  fun_induction Scope.run c todo f with
  | case1 f => exact h
  | case2 f task rest failure g performed =>
    have tells := Scope.tells_perform h task
    rw [performed] at tells
    exact tells
  | case3 f task rest new g performed ih =>
    have tells := Scope.tells_perform h task
    rw [performed] at tells
    exact ih tells

end Survey

theorem FollowSets.tells_ofRule {evaluator : Option Evaluator} {asked : List PredicateCall}
    (h : Unfailed evaluator asked) (a : Automaton) (ignored : List Symbol) (r : Rule) :
    Tells evaluator (ofRule a ignored evaluator asked r).result
      (ofRule a ignored evaluator asked r).asked := by
  have tells := Survey.Scope.tells_run (c := ⟨a, ignored, evaluator, r.stop⟩)
    (f := { asked := asked }) [.visit r.start []] h
  exact tells.map _

/-! ## Searches -/

/-- From a session in which no question has failed, the outcome of a search tells about the questions
in the session that it leaves. -/
def Reports (evaluator : Option Evaluator) (α : Type) (x : Search α) : Prop :=
  ∀ s : Session, Unfailed evaluator s.asked →
    match x s with
    | .ok _ s' | .error .overlong s' => Unfailed evaluator s'.asked
    | .error (.predicate failure) s' => Tells evaluator (.error failure : Except _ α) s'.asked

namespace Request

theorem reports_ask (q : Request) (call : PredicateCall) :
    Reports q.evaluator Bool (Session.ask q call) := by
  intro s h
  have tells := tells_askPredicate h call
  unfold Session.ask
  rw [Search.get_bind]
  cases asked : askPredicate q.evaluator s.asked call with
  | mk answer after =>
    rw [asked] at tells
    cases answer with
    | ok holds => exact tells
    | error failure => exact tells

theorem reports_followSets (q : Request) (r : Rule) :
    Reports q.evaluator FollowSets (Session.followSets q r) := by
  intro s h
  have tells := FollowSets.tells_ofRule h q.engine.automaton q.engine.ignored r
  unfold Session.followSets
  rw [Search.get_bind]
  cases s.cache.find? (Session.keyOf q r) with
  | some sets => exact h
  | none =>
    dsimp only
    cases found : (FollowSets.ofRule q.engine.automaton q.engine.ignored q.evaluator s.asked r).result with
    | ok sets =>
      rw [found] at tells
      exact tells
    | error failure =>
      rw [found] at tells
      exact tells

/-- The first failure of the evaluator ends a search. -/
theorem modular_reports (q : Request) : q.Modular (Reports q.evaluator) where
  pure v s h := h
  bind {α β x f} first next s h := by
    have outcome := first s h
    simp only [Bind.bind, EStateM.bind]
    cases ran : x s with
    | ok v s' =>
      rw [ran] at outcome
      exact next v s' outcome
    | error reason s' =>
      rw [ran] at outcome
      cases reason with
      | predicate failure => exact outcome
      | overlong => exact outcome
  look {α f} _ next s h := next s s h
  adjust _ _ _ _ h := h
  record change s h := by
    rw [Request.record_apply]
    cases change s.candidates with
    | ok c => exact h
    | error fault => exact h
  ask := q.reports_ask
  followSets _ := q.reports_followSets _

end Request

/-! ## Requests -/

def Sentinel.text : Sentinel → Bytes
  | .invalidArgument => "invalid argument"
  | .evaluationFailure => "predicate evaluation failed"
  | .other name => name

namespace CompletionError

/-- An error that is returned wraps a sentinel of its own, and its message starts with it. -/
theorem message_starts {e : CompletionError} (returned : e ≠ .overlong) :
    ∃ own ∈ [Sentinel.invalidArgument, .evaluationFailure], ∃ others detail,
      e.sentinels = own :: others ∧ e.message = own.text ++ ": " ++ detail := by
  cases e with
  | ruleOutside index rules =>
    have split : ("invalid argument: rule index " : Bytes) =
        Sentinel.text .invalidArgument ++ ": " ++ "rule index " := by decide
    simp only [message, split, List.append_assoc]
    exact ⟨.invalidArgument, by simp, [], _, rfl, rfl⟩
  | window cause =>
    obtain ⟨detail, starts⟩ := cause.message_starts
    have split : ("invalid argument: " : Bytes) = Sentinel.text .invalidArgument ++ ": " := by decide
    exact ⟨.invalidArgument, by simp, [], detail, rfl, by rw [message, starts, split]⟩
  | predicate cause =>
    have split : ("predicate evaluation failed: rule " : Bytes) =
        Sentinel.text .evaluationFailure ++ ": " ++ "rule " := by decide
    simp only [message, PredicateFailure.message, split, List.append_assoc]
    exact ⟨.evaluationFailure, by simp, cause.reason.sentinels, _, rfl, rfl⟩
  | overlong => exact absurd rfl returned

end CompletionError

/-- What a request returns, by what its search tells about the evaluator. -/
def CompletionError.outcome :
    Except PredicateFailure (Except Overlong Candidates) → Except CompletionError Candidates
  | .ok (.ok candidates) => .ok candidates
  | .ok (.error _) => .error .overlong
  | .error failure => .error (.predicate failure)

theorem CompletionError.outcome_error_iff
    {result : Except PredicateFailure (Except Overlong Candidates)} {kind : Sentinel} :
    (∃ e, outcome result = .error e ∧ kind ∈ e.sentinels) ↔
      ∃ failure, result = .error failure ∧ (kind = .evaluationFailure ∨ kind ∈ failure.reason.sentinels) := by
  match result with
  | .ok (.ok candidates) => simp [outcome]
  | .ok (.error fault) => simp [outcome, sentinels]
  | .error failure => simp [outcome, sentinels, PredicateFailure.sentinels]

theorem Automaton.rule?_eq_none_iff {a : Automaton} {index : Int} :
    a.rule? index = none ↔ index < 0 ∨ a.rules.size ≤ index := by
  unfold Automaton.rule?
  by_cases negative : index < 0
  · simp [negative]
  · rw [if_neg negative, Array.getElem?_eq_none_iff]
    omega

namespace Engine

def Misplaced (engine : Engine) (stream : TokenStream) (caret : Int) (context : RuleContext) : Prop :=
  context.rule < 0 ∨ engine.automaton.rules.size ≤ context.rule ∨ context.start < 0 ∨
    stream.size < context.start ∨ caret < context.start

instance (engine : Engine) (stream : TokenStream) (caret : Int) (context : RuleContext) :
    Decidable (engine.Misplaced stream caret context) :=
  inferInstanceAs (Decidable (_ ∨ _))

variable {engine : Engine} {stream : TokenStream} {caret : Int} {context : RuleContext}

theorem collect_of_misplaced (h : engine.Misplaced stream caret context) (cache : Cache)
    (evaluator : Option Evaluator) :
    ∃ e, e.sentinels = [.invalidArgument] ∧
      engine.collect cache stream caret context evaluator = ⟨.error e, cache, [], stream⟩ := by
  unfold Engine.collect
  cases found : engine.automaton.rule? context.rule with
  | none => exact ⟨_, rfl, rfl⟩
  | some r =>
    have known : ¬ (context.rule < 0 ∨ engine.automaton.rules.size ≤ context.rule) := by
      rw [← Automaton.rule?_eq_none_iff, found]
      simp
    have outside : context.start < 0 ∨ stream.size < context.start ∨ caret < context.start := by
      unfold Misplaced at h
      omega
    obtain ⟨cause, failed⟩ := TokenStream.window_error_iff.mpr outside
    exact ⟨.window cause, rfl, by simp only [failed]⟩

/-- A request that is not misplaced searches, and its result tells about the questions asked. -/
theorem collect_of_not_misplaced (h : ¬ engine.Misplaced stream caret context) (cache : Cache)
    (evaluator : Option Evaluator) :
    ∃ (result : Except PredicateFailure (Except Overlong Candidates)) (after : Cache)
      (asked : List PredicateCall), Tells evaluator result asked ∧
      engine.collect cache stream caret context evaluator =
        ⟨CompletionError.outcome result, after, asked.reverse, stream.afterWindow context.start⟩ := by
  obtain ⟨r, hr⟩ : ∃ r, engine.automaton.rule? context.rule = some r := by
    rw [← Option.ne_none_iff_exists', ne_eq, Automaton.rule?_eq_none_iff]
    unfold Misplaced at h
    omega
  cases hw : stream.window context.start caret with
  | error cause =>
    have outside := TokenStream.window_error_iff.mp ⟨cause, hw⟩
    exact absurd (.inr (.inr outside)) h
  | ok window =>
    let q : Request := ⟨engine, window.toArray, evaluator⟩
    have tells := q.modular_reports.enterRule [] context.rule.toNat 0 { cache := cache } unfailed_nil
    simp only [Engine.collect, hr, hw, EStateM.run]
    cases searched : q.enterRule [] context.rule.toNat 0 { cache := cache } with
    | ok ends s =>
      rw [searched] at tells
      exact ⟨.ok (.ok { s.candidates with statesProcessed := s.statesProcessed }), s.cache, s.asked,
        tells, rfl⟩
    | error reason s =>
      rw [searched] at tells
      cases reason with
      | predicate failure => exact ⟨.error failure, s.cache, s.asked, tells, rfl⟩
      | overlong => exact ⟨.ok (.error ⟨⟩), s.cache, s.asked, tells, rfl⟩

/-- Where all labels and all stored sets can be listed, a request does not break off. -/
theorem collect_ne_overlong (assembled : engine.automaton.Assembled)
    (labels : engine.automaton.ListableLabels) {cache : Cache}
    (stored : cache.Keeps engine.automaton engine.identity fun _ => FollowSets.Listable)
    (stream : TokenStream) (caret : Int) (context : RuleContext) (evaluator : Option Evaluator) :
    (engine.collect cache stream caret context evaluator).result ≠ .error .overlong := by
  unfold Engine.collect
  cases engine.automaton.rule? context.rule with
  | none => simp
  | some r =>
    cases stream.window context.start caret with
    | error cause => simp
    | ok window =>
      let q : Request := ⟨engine, window.toArray, evaluator⟩
      have finds : q.Finds fun _ => FollowSets.Listable :=
        fun _ _ _ found => (FollowSets.stem_of_ofRule found).listable labels
      have stable : q.Stable (fun _ => FollowSets.Listable) fun _ => True :=
        ⟨fun _ _ _ _ _ _ _ _ => trivial, fun _ _ _ => trivial, fun _ _ _ _ _ _ _ _ _ => trivial⟩
      have search : Yields (· ≠ .overlong) (q.enterRule [] context.rule.toNat 0) { cache := cache } _ :=
        Request.enterRule_keeps assembled.rulesInPlace finds ⟨.inl (by simp), .inr labels⟩
          (.inr fun _ _ listable => listable) stable.stableBelow trivial ⟨trivial, stored⟩
      unfold Yields at search
      simp only [EStateM.run]
      cases searched : q.enterRule [] context.rule.toNat 0 { cache := cache } with
      | ok ends s => simp
      | error reason s =>
        rw [searched] at search
        cases reason with
        | predicate failure => simp [CompletionError.ofInterruption]
        | overlong => exact absurd rfl search

/-- When and how a request fails, whatever the stream was told before, the cache holds and the
evaluator remembers. If its arguments are misplaced, it fails with an error that wraps the sentinel
of invalid arguments only, nothing is asked and the cache stays as it is. The evaluator's sentinel is
wrapped if and only if a question that was asked has failed; that was the last question, and the error
names it and wraps what its reason wraps. So the sentinel of invalid arguments is wrapped in two cases:
the arguments are misplaced, or the evaluator failed with a reason that wraps it. No other error is
returned. A request that breaks off meets a set that cannot be listed. In all cases the stream is
where it was. -/
theorem collect_fails_iff (engine : Engine) (cache : Cache) (tokens : List Token) (moves : List Int)
    (caret : Int) (context : RuleContext) (evaluator : Option Evaluator) :
    let stream := moves.foldl TokenStream.seek (TokenStream.ofTokens tokens)
    let answer := engine.collect cache stream caret context evaluator
    ((∃ e, answer.result = .error e ∧ .invalidArgument ∈ e.sentinels) ↔
        engine.Misplaced stream caret context ∨
          ∃ before call after reason, answer.asked = before ++ call :: after ∧
            Fails evaluator before.reverse call reason ∧ .invalidArgument ∈ reason.sentinels) ∧
      (engine.Misplaced stream caret context → answer.asked = [] ∧ answer.cache = cache ∧
        ∃ e, answer.result = .error e ∧ e.sentinels = [.invalidArgument]) ∧
      ((∃ e, answer.result = .error e ∧ .evaluationFailure ∈ e.sentinels) ↔
        ∃ before call after reason, answer.asked = before ++ call :: after ∧
          Fails evaluator before.reverse call reason) ∧
      (∀ before call after reason, answer.asked = before ++ call :: after →
        Fails evaluator before.reverse call reason →
        after = [] ∧ ∃ e, answer.result = .error e ∧
          e.sentinels = .evaluationFailure :: reason.sentinels ∧
          e.message = "predicate evaluation failed: rule " ++ Bytes.ofInt call.rule ++ " predicate " ++
            Bytes.ofInt call.index ++ ": " ++ reason.text) ∧
      (∀ e, answer.result = .error e → e ≠ .overlong →
        ∃ own ∈ [Sentinel.invalidArgument, .evaluationFailure], ∃ others detail,
          e.sentinels = own :: others ∧ e.message = own.text ++ ": " ++ detail) ∧
      (engine.automaton.Assembled → engine.automaton.ListableLabels →
        cache.Keeps engine.automaton engine.identity (fun _ => FollowSets.Listable) →
        answer.result ≠ .error .overlong) ∧
      answer.stream = stream := by
  intro stream answer
  have settled : stream.Settled := TokenStream.settled_moved tokens moves
  have listed (assembled : engine.automaton.Assembled) (labels : engine.automaton.ListableLabels)
      (stored : cache.Keeps engine.automaton engine.identity fun _ => FollowSets.Listable) :
      answer.result ≠ .error .overlong :=
    collect_ne_overlong assembled labels stored stream caret context evaluator
  by_cases misplaced : engine.Misplaced stream caret context
  · obtain ⟨e, sentinels, same⟩ := collect_of_misplaced misplaced cache evaluator
    have same : answer = _ := same
    have starts := e.message_starts
    simp_all
  · obtain ⟨result, after, asked, tells, same⟩ := collect_of_not_misplaced misplaced cache evaluator
    rw [settled.afterWindow_eq] at same
    have same : answer = _ := same
    have result_eq : answer.result = CompletionError.outcome result := by rw [same]
    have asked_eq : answer.asked = asked.reverse := by rw [same]
    refine ⟨?_, fun h => absurd h misplaced, ?_, ?_, fun e _ => e.message_starts, listed, by rw [same]⟩
    · rw [result_eq, asked_eq, CompletionError.outcome_error_iff, ← tells.error_iff]
      simp [misplaced]
    · have failed := tells.error_iff fun _ => True
      simp only [and_true] at failed
      rw [result_eq, asked_eq, CompletionError.outcome_error_iff, ← failed]
      simp
    · intro before call after reason split failed
      rw [asked_eq] at split
      obtain ⟨nothing, rfl⟩ := tells.eq_error_of_reverse split failed
      exact ⟨nothing, .predicate ⟨call, reason⟩, result_eq, rfl, rfl⟩

/-- A rule that can be passed by two predicates. -/
def doubleDoor : Engine :=
  ⟨((((Automaton.empty.addRule "door").addState 0 .basic).connect 0 (.predicate 2 0 3)).connect 2
    (.predicate 1 0 7)), .automaton 0, [], []⟩

/-- The evaluator answers the first question only. -/
theorem collect_fails_iff_doubleDoor :
    let evaluator : Option Evaluator :=
      some fun asked _ => if asked.isEmpty then .ok true else .error ⟨"busy", []⟩
    let answer := doubleDoor.collect {} (TokenStream.ofTokens [{ symbol := 1 }]) 0 {} evaluator
    answer.asked = [⟨0, 3⟩, ⟨0, 7⟩] ∧ ∃ e, answer.result = .error e ∧
      e.sentinels = [.evaluationFailure] ∧
      e.message = "predicate evaluation failed: rule " ++ Bytes.ofInt 0 ++ " predicate " ++
        Bytes.ofInt 7 ++ ": " ++ "busy" := by
  intro evaluator answer
  have asked : answer.asked = [⟨0, 3⟩, ⟨0, 7⟩] := by decide +kernel
  obtain ⟨-, -, -, last, -⟩ := collect_fails_iff doubleDoor {} [{ symbol := 1 }] [] 0 {} evaluator
  exact ⟨asked, (last [⟨0, 3⟩] ⟨0, 7⟩ [] ⟨"busy", []⟩ asked rfl).2⟩

/-- A rule in which a token is followed by almost any other or by a predicate. -/
def wideDoor : Engine :=
  ⟨(((((Automaton.empty.addRule "R").addState 0 .basic).connect 0 (.atom 2 5)).connect 2
    (.set 1 (some (IntervalSet.range (-9223372036854775807) 9223372036854775806)))).connect 2
    (.predicate 1 0 0)), .automaton 0, [], []⟩

theorem eq_error_of_blame {ε α : Type} {x : Except ε α} {e : ε}
    (h : (match x with | .ok _ => none | .error e => some e) = some e) : x = .error e := by
  cases x with
  | ok value => cases h
  | error cause => exact congrArg _ (Option.some.inj h)

/-- Two requests whose arguments are in place. The first one asks the evaluator, and its error wraps
the sentinel of invalid arguments because the evaluator's reason does. The second one breaks off at a
set before it comes to a predicate on which the evaluator would fail. -/
theorem collect_fails_otherwise :
    let invalid : Option Evaluator := some fun _ _ => .error ⟨"gone", [.invalidArgument]⟩
    let down : Option Evaluator := some fun _ _ => .error ⟨"down", []⟩
    let stream := TokenStream.ofTokens [{ symbol := 5 }]
    ¬ doubleDoor.Misplaced stream 0 {} ∧ (doubleDoor.collect {} stream 0 {} invalid).asked = [⟨0, 3⟩] ∧
      (∃ e, (doubleDoor.collect {} stream 0 {} invalid).result = .error e ∧
        .invalidArgument ∈ e.sentinels) ∧
      ¬ wideDoor.Misplaced stream 1 {} ∧ (wideDoor.collect {} stream 1 {} down).asked = [] ∧
      (wideDoor.collect {} stream 1 {} down).result = .error .overlong := by
  intro invalid down stream
  have gone : (doubleDoor.collect {} stream 0 {} invalid).result =
      .error (.predicate ⟨⟨0, 3⟩, "gone", [.invalidArgument]⟩) :=
    eq_error_of_blame (by decide +kernel)
  have overlong : (wideDoor.collect {} stream 1 {} down).result = .error .overlong :=
    eq_error_of_blame (by decide +kernel)
  exact ⟨by decide, by decide +kernel, ⟨_, gone, by decide⟩, by decide, by decide +kernel, overlong⟩

end Engine

end GrammarCompletion
