import GrammarCompletion.Proofs.Completion.Transparency
import Mathlib.Data.List.Induction
import Mathlib.Data.List.Perm.Subperm

/-!
# The books of a cache

A request surveys a rule where the cache has nothing under the key of the rule. A survey that succeeds
is stored and counted, one that fails is not, and the states that either has visited are counted. So the
cache after a request is the cache before it with the surveys of the request entered one by one
(`Cache.Booked`). The books of a sequence of requests follow: as many entries as surveys that succeeded,
no entry ever replaced, every entry the result of one survey, and a bound on the states visited.
-/

namespace GrammarCompletion

/-! ## States visited by a survey -/

namespace Survey

/-- The states visited are states of the automaton, each visited once. -/
def Findings.Visits (c : Scope) (f : Findings) : Prop :=
  f.seen.Nodup ∧ ∀ n ∈ f.seen, n < c.automaton.states.size

variable {c : Scope} {f : Findings}

theorem Scope.visits_perform (h : f.Visits c) (task : Task) : (c.perform f task).2.Visits c := by
  cases task with
  | visit n path =>
    simp only [Scope.perform]
    split
    · exact h
    · next isNew =>
      split
      · exact h
      · next s found =>
        have inside : n < c.automaton.states.size := (Array.getElem?_eq_some_iff.mp found).choose
        have visited : Findings.Visits c { f with seen := n :: f.seen } :=
          ⟨List.nodup_cons.mpr ⟨by simpa using isNew, h.1⟩, List.forall_mem_cons.mpr ⟨inside, h.2⟩⟩
        split
        · exact visited
        · split
          · exact visited
          · exact visited
  | take t path =>
    cases t with
    | predicate target rule index =>
      simp only [Scope.perform]
      split
      · exact h
      · exact h
    | call rule follow =>
      simp only [Scope.perform]
      split
      · exact h
      · split
        · exact h
        · exact h
    | epsilon | wildcard => exact h
    | atom | set | notSet =>
      show Findings.Visits c (c.recordSymbol _ path f)
      unfold Findings.Visits
      rw [Scope.recordSymbol_seen]
      exact h
  | resume rule state path => exact h

theorem Scope.visits_run (todo : List Task) (h : f.Visits c) : (c.run todo f).2.Visits c := by
  fun_induction Scope.run c todo f with
  | case1 f => exact h
  | case2 f task rest failure g performed =>
    have visits := Scope.visits_perform h task
    rw [performed] at visits
    exact visits
  | case3 f task rest new g performed ih =>
    have visits := Scope.visits_perform h task
    rw [performed] at visits
    exact ih visits

end Survey

theorem FollowSets.visited_ofRule_le (a : Automaton) (ignored : List Symbol)
    (evaluator : Option Evaluator) (asked : List PredicateCall) (r : Rule) :
    (ofRule a ignored evaluator asked r).visited ≤ a.states.size := by
  have visits : Survey.Findings.Visits ⟨a, ignored, evaluator, r.stop⟩ _ :=
    Survey.Scope.visits_run (f := { asked := asked }) [.visit r.start []] ⟨List.nodup_nil, by simp⟩
  have inside : _ ⊆ List.range a.states.size := fun n member => List.mem_range.mpr (visits.2 n member)
  have bound := (List.subperm_of_subset visits.1 inside).length_le
  rw [List.length_range] at bound
  exact bound

/-! ## Surveys entered into a cache -/

/-- A survey that a request makes: the engine and the evaluator of the request, the questions that it
asked before, newest first, and the rule. -/
structure Attempt where
  engine : Engine
  evaluator : Option Evaluator
  asked : List PredicateCall
  rule : Rule

namespace Attempt

def key (a : Attempt) : CacheKey := ⟨a.rule.start, a.engine.identity⟩

def outcome (a : Attempt) : FollowSets.Outcome :=
  FollowSets.ofRule a.engine.automaton a.engine.ignored a.evaluator a.asked a.rule

def MadeBy (engine : Engine) (evaluator : Option Evaluator) (a : Attempt) : Prop :=
  a.engine = engine ∧ a.evaluator = evaluator ∧ a.rule ∈ engine.automaton.rules

def Succeeds (a : Attempt) : Prop := ∃ sets, a.outcome.result = .ok sets

theorem MadeBy.visited_le {engine : Engine} {evaluator : Option Evaluator} {a : Attempt}
    (h : a.MadeBy engine evaluator) : a.outcome.visited ≤ engine.automaton.states.size := by
  rw [← h.1]
  exact FollowSets.visited_ofRule_le _ _ _ _ _

end Attempt

namespace Cache

/-- Count the states that a survey has visited, and store what it has found unless it has failed. -/
def book (c : Cache) (a : Attempt) : Cache :=
  match a.outcome.result with
  | .ok sets => (c.countStates a.outcome.visited).store a.key sets
  | .error _ => c.countStates a.outcome.visited

/-- The second cache is the first one with some surveys entered in order, each made where the cache had
nothing under its key. -/
inductive Booked : Cache → List Attempt → Cache → Prop
  | nil (c : Cache) : Booked c [] c
  | cons {c d : Cache} {a : Attempt} {log : List Attempt} (missing : c.find? a.key = none)
    (rest : Booked (c.book a) log d) : Booked c (a :: log) d

/-- There are as many entries as surveys that succeeded, and no two have the same key. -/
def Balanced (c : Cache) : Prop := c.size = c.computations ∧ (c.entries.map Prod.fst).Nodup

section
variable {c d e : Cache} {a : Attempt} {log more : List Attempt} {key : CacheKey} {sets : FollowSets}

theorem book_of_ok (found : a.outcome.result = .ok sets) :
    c.book a = (c.countStates a.outcome.visited).store a.key sets := by
  simp only [book, found]

theorem book_of_error {failure : PredicateFailure} (failed : a.outcome.result = .error failure) :
    c.book a = c.countStates a.outcome.visited := by
  simp only [book, failed]

theorem find?_book_self (found : a.outcome.result = .ok sets) :
    (c.book a).find? a.key = some sets := by
  rw [book_of_ok found, find?_store, if_pos rfl]

/-- What was there before a survey stays, since the survey was made for another key. -/
theorem find?_book_of_some (missing : c.find? a.key = none) (found : c.find? key = some sets) :
    (c.book a).find? key = some sets := by
  have other : key ≠ a.key := by
    intro same
    rw [same, missing] at found
    cases found
  cases result : a.outcome.result with
  | ok sets' =>
    rw [book_of_ok result, find?_store, if_neg other]
    exact found
  | error failure =>
    rw [book_of_error result]
    exact found

/-- What is there after a survey was there before or has been found by it. -/
theorem find?_book_cases (found : (c.book a).find? key = some sets) :
    c.find? key = some sets ∨ a.key = key ∧ a.outcome.result = .ok sets := by
  cases result : a.outcome.result with
  | ok sets' =>
    rw [book_of_ok result, find?_store] at found
    by_cases same : key = a.key
    · rw [if_pos same] at found
      exact .inr ⟨same.symm, congrArg Except.ok (Option.some.inj found)⟩
    · rw [if_neg same] at found
      exact .inl found
  | error failure =>
    rw [book_of_error result] at found
    exact .inl found

theorem statesVisited_book : (c.book a).statesVisited = c.statesVisited + a.outcome.visited := by
  unfold book
  split
  · rfl
  · rfl

theorem computations_book (succeeds : a.Succeeds) : (c.book a).computations = c.computations + 1 := by
  cases succeeds with
  | intro sets found =>
    rw [book_of_ok found]
    rfl

theorem balanced_empty : Balanced {} := ⟨rfl, List.nodup_nil⟩

theorem Balanced.book (h : c.Balanced) (missing : c.find? a.key = none) : (c.book a).Balanced := by
  cases result : a.outcome.result with
  | ok sets =>
    rw [book_of_ok result]
    have new : a.key ∉ c.entries.map Prod.fst := by
      intro member
      obtain ⟨entry, stored, same⟩ := List.mem_map.mp member
      have differs := List.lookup_eq_none_iff.mp missing entry stored
      simp [same] at differs
    exact ⟨congrArg (· + 1) h.1, List.nodup_cons.mpr ⟨new, h.2⟩⟩
  | error failure =>
    rw [book_of_error result]
    exact h

namespace Booked

theorem eq_of_nil (h : Booked c [] d) : d = c := by
  cases h
  rfl

theorem append (h : Booked c log d) (h' : Booked d more e) : Booked c (log ++ more) e := by
  induction h with
  | nil c => exact h'
  | cons missing _ ih => exact .cons missing (ih h')

theorem of_append (h : Booked c (log ++ more) e) : ∃ d, Booked c log d ∧ Booked d more e := by
  induction log generalizing c with
  | nil => exact ⟨c, .nil c, h⟩
  | cons a log ih =>
    cases h with
    | cons missing rest =>
      obtain ⟨d, first, last⟩ := ih rest
      exact ⟨d, .cons missing first, last⟩

theorem balanced (h : Booked c log d) (before : c.Balanced) : d.Balanced := by
  induction h with
  | nil => exact before
  | cons missing _ ih => exact ih (before.book missing)

theorem find?_of_some (h : Booked c log d) (found : c.find? key = some sets) :
    d.find? key = some sets := by
  induction h with
  | nil => exact found
  | cons missing _ ih => exact ih (find?_book_of_some missing found)

theorem find?_of_mem (h : Booked c log d) (member : a ∈ log) (found : a.outcome.result = .ok sets) :
    d.find? a.key = some sets := by
  induction h with
  | nil => cases member
  | cons missing rest ih =>
    cases member with
    | head => exact rest.find?_of_some (find?_book_self found)
    | tail _ member => exact ih member

theorem find?_iff (h : Booked c log d) :
    d.find? key = some sets ↔
      c.find? key = some sets ∨ ∃ a ∈ log, a.key = key ∧ a.outcome.result = .ok sets := by
  constructor
  · intro found
    induction h with
    | nil => exact .inl found
    | cons missing _ ih =>
      cases ih found with
      | inl earlier =>
        exact (find?_book_cases earlier).imp_right fun here => ⟨_, List.mem_cons_self, here⟩
      | inr later =>
        obtain ⟨a, member, here⟩ := later
        exact .inr ⟨a, List.mem_cons_of_mem _ member, here⟩
  · rintro (before | ⟨a, member, rfl, found⟩)
    · exact h.find?_of_some before
    · exact h.find?_of_mem member found

theorem missing (h : Booked c log d) (member : a ∈ log) : c.find? a.key = none := by
  induction h with
  | nil => cases member
  | @cons c d b log missing _ ih =>
    cases member with
    | head => exact missing
    | tail _ member =>
      have later := ih member
      cases found : c.find? a.key with
      | none => rfl
      | some sets =>
        rw [find?_book_of_some missing found] at later
        cases later

/-- Surveys before the last one succeed, so no key is surveyed twice. -/
theorem nodup_keys {failed : Option Attempt} (h : Booked c (log ++ failed.toList) d)
    (succeeded : ∀ a ∈ log, a.Succeeds) : ((log ++ failed.toList).map Attempt.key).Nodup := by
  induction log generalizing c with
  | nil =>
    cases failed with
    | none => exact List.nodup_nil
    | some a => simp
  | cons a log ih =>
    rw [List.forall_mem_cons] at succeeded
    cases h with
    | cons _ rest =>
      refine List.nodup_cons.mpr ⟨fun member => ?_, ih rest succeeded.2⟩
      obtain ⟨b, later, same⟩ := List.mem_map.mp member
      obtain ⟨sets, found⟩ := succeeded.1
      have absent := rest.missing later
      rw [same, find?_book_self found] at absent
      cases absent

theorem computations (h : Booked c log d) (succeeded : ∀ a ∈ log, a.Succeeds) :
    d.computations = c.computations + log.length := by
  induction h with
  | nil => rfl
  | cons _ _ ih =>
    rw [List.forall_mem_cons] at succeeded
    rw [ih succeeded.2, computations_book succeeded.1, List.length_cons]
    omega

theorem statesVisited (h : Booked c log d) :
    d.statesVisited = log.foldl (fun total a => total + a.outcome.visited) c.statesVisited := by
  induction h with
  | nil => rfl
  | cons _ _ ih => rw [ih, statesVisited_book, List.foldl_cons]

theorem statesVisited_le (h : Booked c log d) {bound : Nat}
    (small : ∀ a ∈ log, a.outcome.visited ≤ bound) :
    d.statesVisited ≤ c.statesVisited + log.length * bound := by
  induction h with
  | nil => exact Nat.le_add_right _ _
  | cons _ _ ih =>
    rw [List.forall_mem_cons] at small
    have rest := ih small.2
    rw [statesVisited_book] at rest
    rw [List.length_cons, Nat.succ_mul]
    omega

end Booked

end

end Cache

/-! ## Surveys of a search -/

namespace Request

def Completes (q : Request) (log : List Attempt) : Prop :=
  ∀ a ∈ log, a.MadeBy q.engine q.evaluator ∧ a.Succeeds

/-- From a session, the surveys of a search are entered into its cache. If it is interrupted then at most
the last of them has not succeeded, for the same reason. -/
def BooksFrom (q : Request) {α : Type} (x : Search α) (s : Session) : Prop :=
  (∀ v s', x s = .ok v s' → ∃ log, q.Completes log ∧ s.cache.Booked log s'.cache) ∧
  ∀ reason s', x s = .error reason s' → ∃ (log : List Attempt) (failed : Option Attempt),
    q.Completes log ∧
    (∀ a ∈ failed, a.MadeBy q.engine q.evaluator ∧ ∃ failure,
      a.outcome.result = .error failure ∧ reason = .predicate failure) ∧
    s.cache.Booked (log ++ failed.toList) s'.cache

section
variable {q : Request} {α β : Type} {x : Search α} {s s' : Session}

theorem completes_nil : q.Completes [] := by
  intro a member
  cases member

theorem Completes.append {log more : List Attempt} (h : q.Completes log) (h' : q.Completes more) :
    q.Completes (log ++ more) :=
  List.forall_mem_append.mpr ⟨h, h'⟩

theorem BooksFrom.of_ok {v : α} (ran : x s = .ok v s') {log : List Attempt} (completes : q.Completes log)
    (booked : s.cache.Booked log s'.cache) : q.BooksFrom x s := by
  constructor
  · intro v' t ran'
    cases ran.symm.trans ran'
    exact ⟨log, completes, booked⟩
  · intro reason t ran'
    cases ran.symm.trans ran'

theorem BooksFrom.of_error {reason : Interruption} (failed : Option Attempt)
    (ran : x s = .error reason s')
    (made : ∀ a ∈ failed, a.MadeBy q.engine q.evaluator ∧ ∃ failure,
      a.outcome.result = .error failure ∧ reason = .predicate failure)
    (booked : s.cache.Booked failed.toList s'.cache) : q.BooksFrom x s := by
  constructor
  · intro v t ran'
    cases ran.symm.trans ran'
  · intro reason' t ran'
    cases ran.symm.trans ran'
    exact ⟨[], failed, completes_nil, made, booked⟩

theorem BooksFrom.bind {f : α → Search β} (first : q.BooksFrom x s)
    (next : ∀ v s', q.BooksFrom (f v) s') : q.BooksFrom (x >>= f) s := by
  have step : (x >>= f) s = EStateM.bind x f s := rfl
  unfold BooksFrom
  simp only [step, EStateM.bind]
  cases ran : x s with
  | ok v t =>
    obtain ⟨log, completes, booked⟩ := first.1 v t ran
    constructor
    · intro w s' ran'
      obtain ⟨more, completes', booked'⟩ := (next v t).1 w s' ran'
      exact ⟨log ++ more, completes.append completes', booked.append booked'⟩
    · intro reason s' ran'
      obtain ⟨more, failed, completes', made, booked'⟩ := (next v t).2 reason s' ran'
      refine ⟨log ++ more, failed, completes.append completes', made, ?_⟩
      rw [List.append_assoc]
      exact booked.append booked'
  | error reason t =>
    constructor
    · intro w s' ran'
      cases ran'
    · intro reason' s' ran'
      cases ran'
      exact first.2 reason t ran

theorem booksFrom_ask (call : PredicateCall) (s : Session) : q.BooksFrom (Session.ask q call) s := by
  cases answered : askPredicate q.evaluator s.asked call with
  | mk answer asked =>
    cases answer with
    | ok holds =>
      have ran : Session.ask q call s = .ok holds { s with asked := asked } := by
        unfold Session.ask
        rw [Search.get_bind]
        simp only [answered]
        rfl
      exact .of_ok ran completes_nil (.nil _)
    | error failure =>
      have ran : Session.ask q call s = .error (.predicate failure) { s with asked := asked } := by
        unfold Session.ask
        rw [Search.get_bind]
        simp only [answered]
        rfl
      exact .of_error none ran (by simp) (.nil _)

/-- Follow sets that are not there are surveyed, once. -/
theorem booksFrom_followSets {rule : Nat} {r : Rule} (hr : q.engine.automaton.rules[rule]? = some r)
    (s : Session) : q.BooksFrom (Session.followSets q r) s := by
  cases known : s.cache.find? (Session.keyOf q r) with
  | some sets =>
    have ran : Session.followSets q r s = .ok sets s := by
      unfold Session.followSets
      rw [Search.get_bind]
      simp only [known]
      rfl
    exact .of_ok ran completes_nil (.nil _)
  | none =>
    let a : Attempt := ⟨q.engine, q.evaluator, s.asked, r⟩
    have made : a.MadeBy q.engine q.evaluator := ⟨rfl, rfl, Array.mem_of_getElem? hr⟩
    have booked : s.cache.Booked [a] (s.cache.book a) := .cons known (.nil _)
    cases found : a.outcome.result with
    | ok sets =>
      have ran : Session.followSets q r s =
          .ok sets { s with cache := s.cache.book a, asked := a.outcome.asked } := by
        rw [Cache.book_of_ok found]
        unfold Session.followSets
        rw [Search.get_bind]
        simp only [known, show (FollowSets.ofRule q.engine.automaton q.engine.ignored q.evaluator
          s.asked r).result = .ok sets from found]
        rfl
      exact .of_ok ran (List.forall_mem_singleton.mpr ⟨made, sets, found⟩) booked
    | error failure =>
      have ran : Session.followSets q r s =
          .error (.predicate failure) { s with cache := s.cache.book a, asked := a.outcome.asked } := by
        rw [Cache.book_of_error found]
        unfold Session.followSets
        rw [Search.get_bind]
        simp only [known, show (FollowSets.ofRule q.engine.automaton q.engine.ignored q.evaluator
          s.asked r).result = .error failure from found]
        rfl
      refine .of_error (some a) ran ?_ booked
      intro b member
      cases member
      exact ⟨made, failure, found, rfl⟩

theorem booksFrom_record (change : Candidates → Except Overlong Candidates) (s : Session) :
    q.BooksFrom (record change) s := by
  have run := record_apply change s
  cases made : change s.candidates with
  | ok c =>
    rw [made] at run
    exact .of_ok run completes_nil (.nil _)
  | error fault =>
    rw [made] at run
    exact .of_error none run (by simp) (.nil _)

end

/-- The surveys of every search of a request are entered into its cache. -/
theorem modular_books (q : Request) : q.Modular fun _ x => ∀ s, q.BooksFrom x s where
  pure _ s := .of_ok rfl completes_nil (.nil s.cache)
  bind first next s := (first s).bind next
  look {_ f} _ next s := by
    have step : (get >>= f) s = f s s := Search.get_bind f s
    unfold BooksFrom
    rw [step]
    exact next s s
  adjust _ _ _ s := .of_ok rfl completes_nil (.nil s.cache)
  record := booksFrom_record
  ask := booksFrom_ask
  followSets := booksFrom_followSets

end Request

/-! ## Sequences of requests -/

namespace Engine

structure Turn where
  call : Call
  evaluator : Option Evaluator

namespace Turn

def collect (t : Turn) (cache : Cache) : Collected := t.call.collect t.evaluator cache

def cacheAfter (turns : List Turn) : Cache := turns.foldl (fun cache t => (t.collect cache).cache) {}

/-- The account of a request: the surveys that it completed, in order, and the one at which the evaluator
failed, if any. -/
structure Account (t : Turn) (before : Cache) (completed : List Attempt) (failed : Option Attempt) :
    Prop where
  /-- All are surveys of rules of its engine with its own evaluator. -/
  made : ∀ a ∈ completed ++ failed.toList, a.MadeBy t.call.engine t.evaluator
  /-- Each is made for want of an entry, and no key is surveyed twice. -/
  missing : ∀ a ∈ completed ++ failed.toList, before.find? a.key = none
  distinct : ((completed ++ failed.toList).map Attempt.key).Nodup
  succeeded : ∀ a ∈ completed, a.Succeeds
  /-- A survey that fails ends the request and leaves nothing under its key. -/
  broken : ∀ a ∈ failed, ∃ failure, a.outcome.result = .error failure ∧
    (t.collect before).result = .error (.predicate failure) ∧
    (t.collect before).cache.find? a.key = none
  /-- The entries are those that were there and those of the completed surveys. -/
  entries : ∀ key sets, (t.collect before).cache.find? key = some sets ↔
    before.find? key = some sets ∨ ∃ a ∈ completed, a.key = key ∧ a.outcome.result = .ok sets
  computations : (t.collect before).cache.computations = before.computations + completed.length
  /-- The states of all surveys are counted, of which none visits more than there are. -/
  statesVisited : (t.collect before).cache.statesVisited =
    (completed ++ failed.toList).foldl (fun total a => total + a.outcome.visited) before.statesVisited
  visited_le : ∀ a ∈ completed ++ failed.toList,
    a.outcome.visited ≤ t.call.engine.automaton.states.size
  statesVisited_le : (t.collect before).cache.statesVisited ≤ before.statesVisited +
    (completed.length + failed.toList.length) * t.call.engine.automaton.states.size

theorem collect_of_interrupted {t : Turn} {before : Cache} {r : Rule} {window : List Token}
    {reason : Interruption} {s : Session}
    (hr : t.call.engine.automaton.rule? t.call.context.rule = some r)
    (hw : t.call.stream.window t.call.context.start t.call.caret = .ok window)
    (ran : Request.enterRule ⟨t.call.engine, window.toArray, t.evaluator⟩ [] t.call.context.rule.toNat 0
      { cache := before } = .error reason s) :
    (t.collect before).result = .error (.ofInterruption reason) ∧ (t.collect before).cache = s.cache := by
  simp only [Turn.collect, Call.collect, Engine.collect, hr, hw, EStateM.run, ran]
  exact ⟨trivial, trivial⟩

theorem exists_booked (t : Turn) (before : Cache) :
    ∃ (completed : List Attempt) (failed : Option Attempt),
      (∀ a ∈ completed, a.MadeBy t.call.engine t.evaluator ∧ a.Succeeds) ∧
      (∀ a ∈ failed, a.MadeBy t.call.engine t.evaluator ∧ ∃ failure,
        a.outcome.result = .error failure ∧ (t.collect before).result = .error (.predicate failure)) ∧
      before.Booked (completed ++ failed.toList) (t.collect before).cache := by
  cases hr : t.call.engine.automaton.rule? t.call.context.rule with
  | none =>
    have same : (t.collect before).cache = before := by
      simp only [Turn.collect, Call.collect, Engine.collect, hr]
    rw [same]
    exact ⟨[], none, by simp, by simp, .nil before⟩
  | some r =>
    cases hw : t.call.stream.window t.call.context.start t.call.caret with
    | error cause =>
      have same : (t.collect before).cache = before := by
        simp only [Turn.collect, Call.collect, Engine.collect, hr, hw]
      rw [same]
      exact ⟨[], none, by simp, by simp, .nil before⟩
    | ok window =>
      let q : Request := ⟨t.call.engine, window.toArray, t.evaluator⟩
      have books := q.modular_books.enterRule [] t.call.context.rule.toNat 0 { cache := before }
      cases ran : q.enterRule [] t.call.context.rule.toNat 0 { cache := before } with
      | ok ends s =>
        obtain ⟨log, completes, booked⟩ := books.1 ends s ran
        have same : (t.collect before).cache = s.cache := by
          rw [Turn.collect, Call.collect, collect_of_enterRule hr hw ran]
        rw [same]
        exact ⟨log, none, completes, by simp, by simpa using booked⟩
      | error reason s =>
        obtain ⟨log, failed, completes, made, booked⟩ := books.2 reason s ran
        obtain ⟨result, same⟩ := collect_of_interrupted hr hw ran
        rw [same]
        refine ⟨log, failed, completes, fun a member => ?_, booked⟩
        obtain ⟨own, failure, found, rfl⟩ := made a member
        exact ⟨own, failure, found, result⟩

theorem exists_account (t : Turn) (before : Cache) :
    ∃ (completed : List Attempt) (failed : Option Attempt), t.Account before completed failed := by
  obtain ⟨completed, failed, completes, breaks, booked⟩ := t.exists_booked before
  have succeeded : ∀ a ∈ completed, a.Succeeds := fun a member => (completes a member).2
  have made : ∀ a ∈ completed ++ failed.toList, a.MadeBy t.call.engine t.evaluator := by
    intro a member
    rcases List.mem_append.mp member with done | last
    · exact (completes a done).1
    · exact (breaks a (Option.mem_toList.mp last)).1
  have visited_le : ∀ a ∈ completed ++ failed.toList,
      a.outcome.visited ≤ t.call.engine.automaton.states.size :=
    fun a member => (made a member).visited_le
  obtain ⟨middle, first, last⟩ := booked.of_append
  -- the survey that failed leaves the entries and the number of surveys as they were
  have same : (t.collect before).cache.entries = middle.entries ∧
      (t.collect before).cache.computations = middle.computations := by
    cases failed with
    | none =>
      rw [last.eq_of_nil]
      exact ⟨rfl, rfl⟩
    | some a =>
      obtain ⟨-, failure, failed, -⟩ := breaks a rfl
      cases last with
      | cons missing rest =>
        rw [rest.eq_of_nil, Cache.book_of_error failed]
        exact ⟨rfl, rfl⟩
  have found : ∀ key, (t.collect before).cache.find? key = middle.find? key := by
    intro key
    unfold Cache.find?
    rw [same.1]
  refine ⟨completed, failed, made, fun a member => booked.missing member,
    booked.nodup_keys succeeded, succeeded, ?_, ?_, ?_, booked.statesVisited, visited_le, ?_⟩
  · intro a member
    obtain ⟨-, failure, failed, result⟩ := breaks a member
    refine ⟨failure, failed, result, ?_⟩
    rw [found]
    exact last.missing (Option.mem_toList.mpr member)
  · intro key sets
    rw [found]
    exact first.find?_iff
  · rw [same.2]
    exact first.computations succeeded
  · have bound := booked.statesVisited_le visited_le
    rw [List.length_append] at bound
    exact bound

theorem cacheAfter_concat (turns : List Turn) (t : Turn) :
    cacheAfter (turns ++ [t]) = (t.collect (cacheAfter turns)).cache := by
  simp [cacheAfter]

theorem balanced_cacheAfter (turns : List Turn) : (cacheAfter turns).Balanced := by
  induction turns using List.reverseRecOn with
  | nil => exact Cache.balanced_empty
  | append_singleton turns t ih =>
    obtain ⟨completed, failed, -, -, booked⟩ := t.exists_booked (cacheAfter turns)
    rw [cacheAfter_concat]
    exact booked.balanced ih

theorem find?_cacheAfter_append {turns : List Turn} {key : CacheKey} {sets : FollowSets}
    (found : (cacheAfter turns).find? key = some sets) (more : List Turn) :
    (cacheAfter (turns ++ more)).find? key = some sets := by
  induction more using List.reverseRecOn with
  | nil =>
    rw [List.append_nil]
    exact found
  | append_singleton more t ih =>
    obtain ⟨completed, failed, account⟩ := t.exists_account (cacheAfter (turns ++ more))
    rw [← List.append_assoc, cacheAfter_concat]
    exact (account.entries key sets).mpr (.inl ih)

/-- An entry was stored by one of the requests, and is what a survey of that request has found. -/
theorem exists_of_find?_cacheAfter {turns : List Turn} {key : CacheKey} {sets : FollowSets}
    (found : (cacheAfter turns).find? key = some sets) :
    ∃ earlier t later, turns = earlier ++ t :: later ∧ (cacheAfter earlier).find? key = none ∧
      (t.collect (cacheAfter earlier)).cache.find? key = some sets ∧
      ∃ a : Attempt, a.MadeBy t.call.engine t.evaluator ∧ a.key = key ∧
        a.outcome.result = .ok sets := by
  induction turns using List.reverseRecOn with
  | nil => cases found
  | append_singleton turns t ih =>
    rw [cacheAfter_concat] at found
    obtain ⟨completed, failed, account⟩ := t.exists_account (cacheAfter turns)
    rcases (account.entries key sets).mp found with before | ⟨a, member, here, result⟩
    · obtain ⟨earlier, u, later, split, rest⟩ := ih before
      exact ⟨earlier, u, later ++ [t], by rw [split]; simp, rest⟩
    · have listed := List.mem_append_left failed.toList member
      exact ⟨turns, t, [], rfl, here ▸ account.missing a listed, found, a, account.made a listed, here,
        result⟩

/-- The books of a cache that requests share, whatever evaluators they bring. After any requests there
are as many entries as surveys that succeeded. What is stored stays as it is. Every entry was stored by
one request and is the result of a survey that this request completed, of the rule with the start state
of the key and with its own evaluator. And the next request has an account of its surveys. -/
theorem cache_bookkeeping (turns : List Turn) :
    let cache := cacheAfter turns
    (cache.size = cache.computations ∧ (cache.entries.map Prod.fst).Nodup) ∧
      (∀ more key sets, cache.find? key = some sets →
        (cacheAfter (turns ++ more)).find? key = some sets) ∧
      (∀ key sets, cache.find? key = some sets →
        ∃ earlier t later, turns = earlier ++ t :: later ∧ (cacheAfter earlier).find? key = none ∧
          (t.collect (cacheAfter earlier)).cache.find? key = some sets ∧
          ∃ a : Attempt, a.MadeBy t.call.engine t.evaluator ∧ a.key = key ∧
            a.outcome.result = .ok sets) ∧
      ∀ t : Turn, ∃ (completed : List Attempt) (failed : Option Attempt),
        t.Account cache completed failed := by
  intro cache
  exact ⟨balanced_cacheAfter turns, fun more _ _ found => find?_cacheAfter_append found more,
    fun _ _ found => exists_of_find?_cacheAfter found, fun t => t.exists_account cache⟩

/-- A request whose evaluator answers some questions and fails from then on. -/
def impatient (answers : Nat) : Turn where
  call := ⟨⟨gate, .grammar "g", [], []⟩, .ofTokens [{ symbol := 5 }], 1, {}⟩
  evaluator := some fun asked _ => if asked.length < answers then .ok true else .error ⟨"tired", []⟩

/-- The evaluator passes the survey of the outer rule and fails in that of the inner one. The outer rule
stays in the cache, and a second request surveys the inner one only. -/
theorem cache_bookkeeping_gate :
    let cache := cacheAfter [impatient 1]
    (cache.size, cache.computations, cache.statesVisited) = (1, 1, 5) ∧
      ((impatient 1).collect {}).result.toOption.isNone ∧
      (cacheAfter [impatient 1, impatient 2]).computations = 2 ∧
      (∀ key sets, cache.find? key = some sets →
        (cacheAfter [impatient 1, impatient 2]).find? key = some sets) ∧
      ∃ (completed : List Attempt) (failed : Option Attempt),
        (impatient 2).Account cache completed failed ∧ completed.length = 1 := by
  intro cache
  have counts : (cache.size, cache.computations, cache.statesVisited) = (1, 1, 5) := by decide +kernel
  have second : (cacheAfter [impatient 1, impatient 2]).computations = 2 := by decide +kernel
  obtain ⟨-, kept, -, accounts⟩ := cache_bookkeeping [impatient 1]
  obtain ⟨completed, failed, account⟩ := accounts (impatient 2)
  have grown : 2 = cache.computations + completed.length := by
    rw [← second]
    exact account.computations
  have first : cache.computations = 1 := congrArg (fun counts => counts.2.1) counts
  exact ⟨counts, by decide +kernel, second, kept [impatient 2], completed, failed, account, by omega⟩

end Turn

end Engine

end GrammarCompletion
