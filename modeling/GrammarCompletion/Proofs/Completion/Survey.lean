import GrammarCompletion.Completion.FollowSets
import GrammarCompletion.Proofs.Automaton.ActiveRules

/-!
# What a survey finds

A survey carries out tasks that give rise to further tasks. `Performed` says once what a task can
do; an invariant of tasks and findings that it keeps holds at the end (`Scope.run_preserves`).

The first invariant here is that every set has an origin: it marks the end of the surveyed rule or is
the label of a transition. The second is that everything met is real: each state met is reached by a
run from the start of the surveyed rule that consumes nothing and has the rules of the path open, each
recorded symbol can come next there, and a rule counts as able to end only if it is.
-/

namespace GrammarCompletion

open Automaton

def Confirms (evaluator : Option Evaluator) (holds : PredicateCall → Prop) : Prop :=
  ∀ asked call, (askPredicate evaluator asked call).1 = .ok true → holds call

def Unfailing (evaluator : Option Evaluator) : Prop :=
  ∀ asked call, ∃ answer, (askPredicate evaluator asked call).1 = .ok answer

theorem unfailing_none : Unfailing none := fun _ _ => ⟨true, rfl⟩

theorem exists_ok_of_toOption {ε α β : Type} {x : Except ε α} {f : α → β} {v : β}
    (h : x.toOption.map f = some v) : ∃ y, x = .ok y ∧ f y = v := by
  cases x with
  | error e => cases h
  | ok y => exact ⟨y, rfl, Option.some.inj h⟩

namespace Survey

inductive Performed (c : Scope) (f : Findings) : Task → List Task → Findings → Prop
  | known {n : Nat} {path : List Nat} (h : n ∈ f.seen) : Performed c f (.visit n path) [] f
  | missing {n : Nat} {path : List Nat} (h : c.automaton.states[n]? = none) :
      Performed c f (.visit n path) [] f
  | finish {path : List Nat} {s : State} (h : c.stop ∉ f.seen)
      (hs : c.automaton.states[c.stop]? = some s) :
      Performed c f (.visit c.stop path) []
        (Findings.record { f with seen := c.stop :: f.seen }
          (IntervalSet.singleton Symbol.nothing) path [])
  | ruleStop {n : Nat} {path : List Nat} {s : State} (h : n ∉ f.seen)
      (hs : c.automaton.states[n]? = some s) (hn : n ≠ c.stop) (hk : s.kind = .ruleStop) :
      Performed c f (.visit n path) []
        { f with seen := n :: f.seen, nullable := s.rule :: f.nullable }
  | expand {n : Nat} {path : List Nat} {s : State} (h : n ∉ f.seen)
      (hs : c.automaton.states[n]? = some s) (hn : n ≠ c.stop) (hk : s.kind ≠ .ruleStop) :
      Performed c f (.visit n path) (s.transitions.map (Task.take · path))
        { f with seen := n :: f.seen }
  | entered {rule follow : Nat} {path : List Nat} (h : rule ∈ path) :
      Performed c f (.take (.call rule follow) path) [] f
  | noRule {rule follow : Nat} {path : List Nat} (h : c.automaton.rules[rule]? = none) :
      Performed c f (.take (.call rule follow) path) [] f
  | call {rule follow : Nat} {path : List Nat} {r : Rule} (h : rule ∉ path)
      (hr : c.automaton.rules[rule]? = some r) :
      Performed c f (.take (.call rule follow) path)
        [.visit r.start (path ++ [rule]), .resume rule follow path] f
  | predicate {target : Nat} {rule index : Int} {path : List Nat} {holds : Bool}
      {asked : List PredicateCall}
      (h : askPredicate c.evaluator f.asked ⟨rule, index⟩ = (.ok holds, asked)) :
      Performed c f (.take (.predicate target rule index) path)
        (if holds then [.visit target path] else []) { f with asked := asked }
  | epsilon (target : Nat) (path : List Nat) :
      Performed c f (.take (.epsilon target) path) [.visit target path] f
  | wildcard (target : Nat) (path : List Nat) :
      Performed c f (.take (.wildcard target) path) [] (f.record c.automaton.alphabet path [])
  | symbol {t : Transition} {target : Nat} (path : List Nat) (h : t.symbolTarget? = some target) :
      Performed c f (.take t path) [] (c.recordSymbol t path f)
  | resume (rule state : Nat) (path : List Nat) :
      Performed c f (.resume rule state path)
        (if f.nullable.contains rule then [.visit state path] else []) f

theorem performed_of_perform {c : Scope} {f g : Findings} {task : Task} {new : List Task}
    (h : c.perform f task = (.ok new, g)) : Performed c f task new g := by
  cases task with
  | visit n path =>
    simp only [Scope.perform] at h
    split at h
    case isTrue hseen =>
      cases h
      exact .known (by simpa using hseen)
    case isFalse hseen =>
      have hseen : n ∉ f.seen := by simpa using hseen
      split at h
      case h_1 hs =>
        cases h
        exact .missing hs
      case h_2 s hs =>
        split at h
        case isTrue hn =>
          subst hn
          cases h
          exact .finish hseen hs
        case isFalse hn =>
          split at h
          case isTrue hk =>
            cases h
            exact .ruleStop hseen hs hn hk
          case isFalse hk =>
            cases h
            exact .expand hseen hs hn hk
  | take t path =>
    cases t with
    | epsilon target =>
      cases h
      exact .epsilon target path
    | atom | set | notSet =>
      cases h
      exact .symbol path rfl
    | wildcard target =>
      cases h
      exact .wildcard target path
    | call rule follow =>
      simp only [Scope.perform] at h
      split at h
      case isTrue hin =>
        cases h
        exact .entered (by simpa using hin)
      case isFalse hin =>
        split at h
        case h_1 hr =>
          cases h
          exact .noRule hr
        case h_2 r hr =>
          cases h
          exact .call (by simpa using hin) hr
    | predicate target rule index =>
      simp only [Scope.perform] at h
      split at h
      case h_1 => cases h
      case h_2 holds asked hask =>
        cases h
        exact .predicate hask
  | resume rule state path =>
    cases h
    exact .resume rule state path

theorem Scope.run_preserves {c : Scope} {Inv : List Task → Findings → Prop}
    (step : ∀ task rest f new g, Inv (task :: rest) f → Performed c f task new g →
      Inv (new ++ rest) g)
    {todo : List Task} {f g : Findings} (h : Inv todo f) {u : Unit}
    (hr : c.run todo f = (.ok u, g)) : Inv [] g := by
  fun_induction Scope.run c todo f with
  | case1 f =>
    cases hr
    exact h
  | case2 => cases hr
  | case3 f task rest new f' hp ih =>
    exact ih (step _ _ _ _ _ h (performed_of_perform hp)) hr

end Survey

theorem FollowSets.run_of_ofRule {a : Automaton} {ignored : List Symbol}
    {evaluator : Option Evaluator} {asked : List PredicateCall} {r : Rule} {sets : FollowSets}
    (h : (ofRule a ignored evaluator asked r).result = .ok sets) :
    ∃ found, Survey.Scope.run ⟨a, ignored, evaluator, r.stop⟩ [.visit r.start []]
      { asked := asked } = (.ok (), found) ∧ sets = ofSets found.sets := by
  cases hrun : Survey.Scope.run ⟨a, ignored, evaluator, r.stop⟩ [.visit r.start []]
    { asked := asked } with
  | mk result found =>
    simp only [ofRule, hrun] at h
    cases result with
    | error failure => cases h
    | ok u =>
      cases h
      exact ⟨found, rfl, rfl⟩

/-! ## Every set has an origin -/

/-- A follow set marks the end of the surveyed rule, or it is the label of a transition with the
tokens that are forced behind it, or without any. The rules on its path are there. -/
structure FollowSet.Stems (a : Automaton) (ignored : List Symbol) (set : FollowSet) : Prop where
  origin : (set.symbols = IntervalSet.singleton Symbol.nothing ∧ set.following = []) ∨
    ∃ n, ∃ t ∈ a.transitionsAt n, a.symbolLabel t = some set.symbols ∧
      (set.following = [] ∨ set.following = forcedAfter a ignored t)
  path : ∀ rule ∈ set.path, ∃ r, a.rules[rule]? = some r

def FollowSets.Stem (a : Automaton) (ignored : List Symbol) (sets : FollowSets) : Prop :=
  ∀ set ∈ sets.sets, set.Stems a ignored

namespace Survey

def Task.path : Task → List Nat
  | .visit _ path | .take _ path | .resume _ _ path => path

/-- The task takes a transition of the automaton, if any, below rules that are there. -/
structure Task.Stems (a : Automaton) (task : Task) : Prop where
  known : ∀ t path, task = .take t path → ∃ n, t ∈ a.transitionsAt n
  path : ∀ rule ∈ task.path, ∃ r, a.rules[rule]? = some r

variable {c : Scope} {f g : Findings}

theorem stems_record (hf : ∀ set ∈ f.sets, set.Stems c.automaton c.ignored) {symbols : IntervalSet}
    {path : List Nat} {following : List Symbol}
    (new : FollowSet.Stems c.automaton c.ignored ⟨symbols, path, following⟩) :
    ∀ set ∈ (f.record symbols path following).sets, set.Stems c.automaton c.ignored := by
  intro set member
  rcases List.mem_append.mp member with old | member
  · exact hf set old
  · cases List.mem_singleton.mp member
    exact new

theorem Performed.stems {task : Task} {new : List Task} (hp : Performed c f task new g)
    (ht : task.Stems c.automaton) (hf : ∀ set ∈ f.sets, set.Stems c.automaton c.ignored) :
    (∀ task ∈ new, task.Stems c.automaton) ∧ ∀ set ∈ g.sets, set.Stems c.automaton c.ignored := by
  obtain ⟨known, path⟩ := ht
  -- a task that takes no transition is as good as its path
  have visit : ∀ n path, (∀ rule ∈ path, ∃ r, c.automaton.rules[rule]? = some r) →
      (Task.visit n path).Stems c.automaton := fun _ _ path => ⟨by simp, path⟩
  cases hp with
  | known | missing | entered | noRule | ruleStop => exact ⟨by simp, hf⟩
  | finish => exact ⟨by simp, stems_record hf ⟨.inl ⟨rfl, rfl⟩, path⟩⟩
  | @expand n _ s _ hs =>
    refine ⟨fun task member => ?_, hf⟩
    obtain ⟨t, ht, rfl⟩ := List.mem_map.mp member
    refine ⟨fun t' path' same => ?_, path⟩
    cases same
    exact ⟨n, by rwa [transitionsAt_of_state hs]⟩
  | @call rule _ path' r _ hr =>
    refine ⟨?_, hf⟩
    rw [List.forall_mem_cons, List.forall_mem_singleton]
    refine ⟨visit _ _ ?_, by simp, path⟩
    rw [List.forall_mem_append, List.forall_mem_singleton]
    exact ⟨path, r, hr⟩
  | epsilon target => exact ⟨List.forall_mem_singleton.mpr (visit _ _ path), hf⟩
  | @predicate target _ _ _ answer =>
    refine ⟨?_, hf⟩
    cases answer with
    | false => simp
    | true => exact List.forall_mem_singleton.mpr (visit _ _ path)
  | resume =>
    refine ⟨?_, hf⟩
    split
    · exact List.forall_mem_singleton.mpr (visit _ _ path)
    · simp
  | wildcard =>
    obtain ⟨n, ht⟩ := known _ _ rfl
    exact ⟨by simp, stems_record hf ⟨.inr ⟨n, _, ht, rfl, .inl rfl⟩, path⟩⟩
  | symbol =>
    obtain ⟨n, ht⟩ := known _ _ rfl
    refine ⟨by simp, ?_⟩
    unfold Scope.recordSymbol
    split
    case h_1 => exact hf
    case h_2 label hl =>
      split
      · exact hf
      · refine stems_record hf ⟨.inr ⟨n, _, ht, hl, ?_⟩, path⟩
        dsimp only
        split
        · exact .inr rfl
        · exact .inl rfl

end Survey

theorem FollowSets.stem_of_ofRule {a : Automaton} {ignored : List Symbol}
    {evaluator : Option Evaluator} {asked : List PredicateCall} {r : Rule} {sets : FollowSets}
    (h : (ofRule a ignored evaluator asked r).result = .ok sets) : sets.Stem a ignored := by
  obtain ⟨found, hrun, rfl⟩ := run_of_ofRule h
  let Inv (todo : List Survey.Task) (f : Survey.Findings) : Prop :=
    (∀ task ∈ todo, task.Stems a) ∧ ∀ set ∈ f.sets, set.Stems a ignored
  have step : ∀ task rest f new g, Inv (task :: rest) f →
      Survey.Performed ⟨a, ignored, evaluator, r.stop⟩ f task new g → Inv (new ++ rest) g := by
    rintro task rest f new g ⟨todo, hf⟩ performed
    rw [List.forall_mem_cons] at todo
    obtain ⟨added, hg⟩ := performed.stems todo.1 hf
    exact ⟨List.forall_mem_append.mpr ⟨added, todo.2⟩, hg⟩
  have initial : Inv [.visit r.start []] { asked := asked } :=
    ⟨List.forall_mem_singleton.mpr ⟨by simp, by simp [Survey.Task.path]⟩, by simp⟩
  exact (Survey.Scope.run_preserves step initial hrun).2

/-- What the mark of the end and all labels have, all sets have. -/
theorem FollowSets.Stem.symbols {a : Automaton} {ignored : List Symbol} {sets : FollowSets}
    (h : sets.Stem a ignored) {P : IntervalSet → Prop}
    (mark : P (IntervalSet.singleton Symbol.nothing))
    (labels : ∀ n, ∀ t ∈ a.transitionsAt n, ∀ label, a.symbolLabel t = some label → P label) :
    ∀ set ∈ sets.sets, P set.symbols := by
  intro set member
  rcases (h set member).origin with ⟨same, -⟩ | ⟨n, t, ht, hl, -⟩
  · rw [same]
    exact mark
  · exact labels n t ht _ hl

/-! ## States met without input -/

namespace Automaton

variable {a : Automaton} {holds : PredicateCall → Prop} {start n m : Nat}

def Nullable (a : Automaton) (holds : PredicateCall → Prop) (rule : Nat) : Prop :=
  ∃ (r : Rule) (stop : Nat), a.rules[rule]? = some r ∧ a.IsStop stop ∧
    Path a holds r.start [] stop

/-- A rule cannot be passed without input if no silent transition and no call leads out of a set of
states that holds its start and no stop. -/
theorem not_nullable_of_trap (trap : List Nat) (open_ : ∀ n ∈ trap, ¬ a.IsStop n)
    (closed : ∀ n ∈ trap, ∀ t ∈ a.transitionsAt n,
      match t with
      | .epsilon target | .predicate target _ _ => target ∈ trap
      | .call rule _ => ∀ r, a.rules[rule]? = some r → r.start ∈ trap
      | _ => True) {rule : Nat} (hr : ∀ r, a.rules[rule]? = some r → r.start ∈ trap) :
    ¬ a.Nullable holds rule := by
  have caught : ∀ {n k : Nat} {w : List Symbol}, Path a holds n w k → w = [] → n ∈ trap →
      k ∈ trap := by
    intro n k w path hw hn
    induction path with
    | refl n => exact hn
    | move hm _ ih =>
      obtain ⟨rfl, rfl⟩ := List.append_eq_nil_iff.mp hw
      cases hm with
      | epsilon ht | predicate ht => exact ih rfl (closed _ hn _ ht)
    | call hc hr _ hstop _ body _ =>
      -- The called rule would end inside the set.
      obtain ⟨rfl, rfl⟩ := List.append_eq_nil_iff.mp hw
      exact absurd hstop (open_ _ (body rfl (closed _ hn _ hc _ hr)))
  rintro ⟨r, stop, h, hstop, path⟩
  exact open_ stop (caught path rfl (hr r h)) hstop

/-- The state is reached from the start of its own rule without input, and that one from `start` by
entering the rules of the path. -/
def Met (a : Automaton) (holds : PredicateCall → Prop) (start : Nat) (path : List Nat) (n : Nat) :
    Prop :=
  ∃ (rule : Nat) (r : Rule), a.rules[rule]? = some r ∧
    (∃ kind, a.shape? n = some (kind, rule)) ∧ Path a holds r.start [] n ∧
    ∃ stack, Run a holds ⟨start, []⟩ [] ⟨r.start, stack⟩ ∧
      a.activeRules ⟨r.start, stack⟩ = a.activeRules ⟨start, []⟩ ++ path

variable {path : List Nat}

theorem Met.of_rule (ha : a.RulesInPlace) {rule : Nat} {r : Rule} (hr : a.rules[rule]? = some r) :
    Met a holds r.start [] r.start :=
  ⟨rule, r, hr, ⟨_, (ha rule r hr).1⟩, .refl _, [], .refl _, (List.append_nil _).symm⟩

theorem Met.run_active (ha : a.StaysInRule) (h : Met a holds start path n) :
    ∃ stack, Run a holds ⟨start, []⟩ [] ⟨n, stack⟩ ∧
      a.activeRules ⟨n, stack⟩ = a.activeRules ⟨start, []⟩ ++ path := by
  obtain ⟨rule, r, -, -, first, stack, run, active⟩ := h
  refine ⟨stack, run.trans (first.run stack), ?_⟩
  rw [activeRules_congr (ha.owner?_path first), active]

theorem Met.run (h : Met a holds start path n) :
    ∃ stack, Run a holds ⟨start, []⟩ [] ⟨n, stack⟩ := by
  obtain ⟨rule, r, -, -, first, stack, run, -⟩ := h
  exact ⟨stack, run.trans (first.run stack)⟩

theorem Met.step (ha : a.StaysInRule) (h : Met a holds start path n) {t : Transition}
    (ht : t ∈ a.transitionsAt n) (step : Path a holds n [] t.next) :
    Met a holds start path t.next := by
  obtain ⟨rule, r, hr, ⟨kind, hn⟩, first, run⟩ := h
  exact ⟨rule, r, hr, ha.shape?_next hn ht, first.trans step, run⟩

theorem Met.enter (ha : a.RulesInPlace) (stays : a.StaysInRule) (h : Met a holds start path n)
    {rule follow : Nat} {r : Rule} (hc : .call rule follow ∈ a.transitionsAt n)
    (hr : a.rules[rule]? = some r) : Met a holds start (path ++ [rule]) r.start := by
  obtain ⟨stack, run, active⟩ := h.run_active stays
  refine ⟨rule, r, hr, ⟨_, (ha rule r hr).1⟩, .refl _, follow :: stack,
    run.trans (.single (.call hc hr)), ?_⟩
  rw [activeRules_call stays ha hc hr, active, List.append_assoc]

theorem Met.resume (ha : a.StaysInRule) (h : Met a holds start path n) {rule follow : Nat}
    (hc : .call rule follow ∈ a.transitionsAt n) (hn : a.Nullable holds rule) :
    Met a holds start path follow := by
  obtain ⟨r, stop, hr, hstop, body⟩ := hn
  exact h.step ha hc (.of_call hc hr body hstop)

theorem Met.nullable (h : Met a holds start path n) {rule : Nat}
    (hn : a.shape? n = some (.ruleStop, rule)) :
    ∃ r : Rule, a.rules[rule]? = some r ∧ Path a holds r.start [] n := by
  obtain ⟨rule', r, hr, ⟨kind, hn'⟩, first, -⟩ := h
  cases hn.symm.trans hn'
  exact ⟨r, hr, first⟩

end Automaton

/-! ## Everything found is real -/

namespace Survey

variable {a : Automaton} {holds : PredicateCall → Prop} {c : Scope}

def Task.Sound (a : Automaton) (holds : PredicateCall → Prop) (start : Nat) : Task → Prop
  | .visit n path => Met a holds start path n
  | .take t path => ∃ n, Met a holds start path n ∧ t ∈ a.transitionsAt n
  | .resume rule follow path =>
    ∃ n, Met a holds start path n ∧ .call rule follow ∈ a.transitionsAt n

/-- A follow set of a rule is the mark of its end or holds what can come first. -/
def SetSound (a : Automaton) (holds : PredicateCall → Prop) (r : Rule) (set : FollowSet) : Prop :=
  (set.symbols = IntervalSet.singleton Symbol.nothing ∧ Path a holds r.start [] r.stop) ∨
    ∀ x ∈ set.symbols, ∃ n, Met a holds r.start set.path n ∧ a.Offers n x

structure Findings.Sound (a : Automaton) (holds : PredicateCall → Prop) (r : Rule)
    (f : Findings) : Prop where
  nullable : ∀ rule ∈ f.nullable, a.Nullable holds rule
  sets : ∀ set ∈ f.sets, SetSound a holds r set
  paths : ∀ set ∈ f.sets, ∃ n, Met a holds r.start set.path n

theorem Findings.Sound.record {r : Rule} {f : Findings} (h : f.Sound a holds r)
    {symbols : IntervalSet} {path : List Nat} {following : List Symbol}
    (hs : SetSound a holds r ⟨symbols, path, following⟩)
    (hp : ∃ n, Met a holds r.start path n) :
    (f.record symbols path following).Sound a holds r where
  nullable := h.nullable
  sets := by
    intro set hset
    rcases List.mem_append.mp hset with hset | hset
    · exact h.sets set hset
    · cases List.mem_singleton.mp hset
      exact hs
  paths := by
    intro set hset
    rcases List.mem_append.mp hset with hset | hset
    · exact h.paths set hset
    · cases List.mem_singleton.mp hset
      exact hp

theorem Findings.Sound.recordSymbol {r : Rule} {f : Findings} (hc : c.automaton = a)
    (h : f.Sound a holds r) {n : Nat} {t : Transition} {path : List Nat}
    (hn : Met a holds r.start path n) (ht : t ∈ a.transitionsAt n) :
    (c.recordSymbol t path f).Sound a holds r := by
  subst hc
  unfold Scope.recordSymbol
  split
  case h_1 => exact h
  case h_2 label hl =>
    split
    · exact h
    · exact h.record (.inr fun x hx => ⟨n, hn, t, ht, label, hl, hx⟩) ⟨n, hn⟩

/-- Every task is sound and so are the findings. -/
def Sound (a : Automaton) (holds : PredicateCall → Prop) (r : Rule) (todo : List Task)
    (f : Findings) : Prop :=
  (∀ task ∈ todo, task.Sound a holds r.start) ∧ f.Sound a holds r

theorem Sound.initial {r : Rule} {rule : Nat} (hplace : a.RulesInPlace)
    (hr : a.rules[rule]? = some r) (asked : List PredicateCall) :
    Sound a holds r [.visit r.start []] { asked := asked } := by
  refine ⟨fun task ht => ?_, by simp, by simp, by simp⟩
  cases List.mem_singleton.mp ht
  exact Met.of_rule hplace hr

theorem Sound.step {r : Rule} {rule : Nat} (hc : c.automaton = a) (hstop : c.stop = r.stop)
    (hr : a.rules[rule]? = some r) (hplace : a.RulesInPlace) (hstays : a.StaysInRule)
    (confirms : Confirms c.evaluator holds) (task : Task) (rest : List Task) (f : Findings)
    (new : List Task) (g : Findings) (h : Sound a holds r (task :: rest) f)
    (hp : Performed c f task new g) : Sound a holds r (new ++ rest) g := by
  obtain ⟨htasks, hf⟩ := h
  rw [List.forall_mem_cons] at htasks
  obtain ⟨htask, hrest⟩ := htasks
  suffices hs : (∀ task ∈ new, task.Sound a holds r.start) ∧ g.Sound a holds r by
    refine ⟨fun task ht => ?_, hs.2⟩
    rcases List.mem_append.mp ht with ht | ht
    · exact hs.1 task ht
    · exact hrest task ht
  subst hc
  cases hp with
  | known | missing | entered | noRule => exact ⟨by simp, hf⟩
  | finish _ hs =>
    have visited : Findings.Sound c.automaton holds r { f with seen := c.stop :: f.seen } :=
      ⟨hf.nullable, hf.sets, hf.paths⟩
    refine ⟨by simp, visited.record (.inl ⟨rfl, ?_⟩) ⟨_, htask⟩⟩
    rw [hstop] at htask
    obtain ⟨r', hr', path⟩ := htask.nullable (hplace rule r hr).2
    cases hr.symm.trans hr'
    exact path
  | ruleStop _ hs _ hk =>
    have shape := shape?_of_state hs
    rw [hk] at shape
    refine ⟨by simp, fun q hq => ?_, hf.sets, hf.paths⟩
    rcases List.mem_cons.mp hq with rfl | hq
    · obtain ⟨r', hr', path⟩ := htask.nullable shape
      exact ⟨r', _, hr', isStop_iff.mpr ⟨_, shape⟩, path⟩
    · exact hf.nullable q hq
  | expand _ hs =>
    refine ⟨fun task ht => ?_, hf.nullable, hf.sets, hf.paths⟩
    obtain ⟨t, ht, rfl⟩ := List.mem_map.mp ht
    exact ⟨_, htask, by rwa [transitionsAt_of_state hs]⟩
  | call _ hr' =>
    obtain ⟨n, hn, ht⟩ := htask
    refine ⟨fun task hm => ?_, hf⟩
    simp only [List.mem_cons, List.not_mem_nil, or_false] at hm
    rcases hm with rfl | rfl
    · exact hn.enter hplace hstays ht hr'
    · exact ⟨n, hn, ht⟩
  | @predicate target rule index path answer asked hask =>
    obtain ⟨n, hn, ht⟩ := htask
    refine ⟨?_, hf.nullable, hf.sets, hf.paths⟩
    cases answer with
    | false => simp
    | true =>
      intro task hm
      cases List.mem_singleton.mp hm
      exact hn.step hstays ht (.of_move (.predicate ht (confirms _ _ (by rw [hask]))))
  | epsilon target path =>
    obtain ⟨n, hn, ht⟩ := htask
    refine ⟨fun task hm => ?_, hf⟩
    cases List.mem_singleton.mp hm
    exact hn.step hstays ht (.of_move (.epsilon ht))
  | wildcard target path =>
    obtain ⟨n, hn, ht⟩ := htask
    exact ⟨by simp, hf.record (.inr fun x hx => ⟨n, hn, _, ht, _, rfl, hx⟩) ⟨n, hn⟩⟩
  | symbol path =>
    obtain ⟨n, hn, ht⟩ := htask
    exact ⟨by simp, hf.recordSymbol rfl hn ht⟩
  | resume rule follow path =>
    obtain ⟨n, hn, ht⟩ := htask
    refine ⟨fun task hm => ?_, hf⟩
    split at hm
    case isTrue hnull =>
      cases List.mem_singleton.mp hm
      exact hn.resume hstays ht (hf.nullable rule (by simpa using hnull))
    case isFalse => cases hm

end Survey

/-! ## Follow sets -/

namespace FollowSets

variable {a : Automaton} {holds : PredicateCall → Prop} {r : Rule} {sets : FollowSets}

structure Sound (a : Automaton) (holds : PredicateCall → Prop) (r : Rule) (f : FollowSets) :
    Prop where
  eq_ofSets : f = ofSets f.sets
  sets : ∀ set ∈ f.sets, Survey.SetSound a holds r set
  paths : ∀ set ∈ f.sets, ∃ n, Met a holds r.start set.path n

theorem ofRule_sound {rule : Nat} (hr : a.rules[rule]? = some r) (hplace : a.RulesInPlace)
    (hstays : a.StaysInRule) {ignored : List Symbol} {evaluator : Option Evaluator}
    {asked : List PredicateCall} (confirms : Confirms evaluator holds)
    (h : (ofRule a ignored evaluator asked r).result = .ok sets) : sets.Sound a holds r := by
  obtain ⟨found, hrun, rfl⟩ := run_of_ofRule h
  have finish := Survey.Scope.run_preserves
    (Survey.Sound.step rfl rfl hr hplace hstays confirms) (.initial hplace hr asked) hrun
  exact ⟨rfl, finish.2.sets, finish.2.paths⟩

theorem atLeast_ofSets {b : Int64} {sets : List FollowSet}
    (h : ∀ set ∈ sets, ∀ x ∈ set.symbols, b ≤ x) : (ofSets sets).combined.AtLeast b := by
  have fold : ∀ (sets : List FollowSet) (all : IntervalSet), all.AtLeast b →
      (∀ set ∈ sets, ∀ x ∈ set.symbols, b ≤ x) →
      (sets.foldl (fun all set => all.union set.symbols) all).AtLeast b := by
    intro sets
    induction sets with
    | nil => exact fun all ha _ => ha
    | cons set sets ih =>
      intro all ha hs
      rw [List.forall_mem_cons] at hs
      exact ih _ (ha.union hs.1) hs.2
  exact fold sets _ (IntervalSet.atLeast_empty b) h

/-- A rule that its follow sets let end can be passed without input. No label holds the mark of the
end, so only the rule's own stop state has put it there. -/
theorem Sound.path_of_canEnd (h : sets.Sound a holds r) (positive : a.PositiveLabels)
    (hc : sets.canEnd = true) : Path a holds r.start [] r.stop := by
  apply Classical.byContradiction
  intro none
  have large : ∀ set ∈ sets.sets, ∀ x ∈ set.symbols, Symbol.firstUser ≤ x := by
    intro set hset x hx
    rcases h.sets set hset with ⟨-, path⟩ | offered
    · exact absurd path none
    · obtain ⟨n, -, hn⟩ := offered x hx
      exact positive.le_of_offers hn
  have low := atLeast_ofSets large
  rw [← h.eq_ofSets] at low
  exact absurd (low.le (IntervalSet.mem_of_contains hc)) (by decide)

end FollowSets

end GrammarCompletion
