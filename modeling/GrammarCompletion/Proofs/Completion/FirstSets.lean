import GrammarCompletion.Proofs.Completion.Survey

/-!
# Surveys miss nothing

A survey skips a call if the called rule is on the path to it, and goes on behind a call only if
the called rule is known to end without input by then. Nothing is lost by either unless a rule that
can end without input enters itself again without input.

The pending tasks form a stack: the path of a task continues the paths of those behind it. So when
a call is resumed, nothing of the called rule is pending, and what is known of it is final.
-/

namespace GrammarCompletion

open Automaton

namespace Automaton

def Reenters (a : Automaton) (holds : PredicateCall → Prop) (rule : Nat) : Prop :=
  ∃ (r : Rule) (follow : Nat) (stack : List Nat), a.rules[rule]? = some r ∧
    Run a holds ⟨r.start, []⟩ [] ⟨r.start, follow :: stack⟩

/-- What compiled automata have in common: rules are in place and not left but by calls, and a rule
ends at its stop state alone, from where nothing leads on. -/
structure WellFormed (a : Automaton) : Prop where
  inPlace : a.RulesInPlace
  stays : a.StaysInRule
  stop_eq : ∀ {n rule : Nat}, a.shape? n = some (.ruleStop, rule) →
    ∃ r, a.rules[rule]? = some r ∧ r.stop = n
  stop_closed : ∀ {n : Nat}, a.IsStop n → a.transitionsAt n = []

theorem WellFormed.eq_stop {a : Automaton} (ha : a.WellFormed) {holds : PredicateCall → Prop}
    {rule n : Nat} {r : Rule} {u : List Symbol} (hr : a.rules[rule]? = some r)
    (path : Path a holds r.start u n) (hstop : a.IsStop n) : n = r.stop := by
  obtain ⟨kind, hn⟩ := ha.stays.shape?_of_path path ⟨_, (ha.inPlace rule r hr).1⟩
  obtain ⟨s, hs, hkind⟩ := hstop
  cases (shape?_of_state hs).symm.trans hn
  rw [hkind] at hn
  obtain ⟨r', hr', rfl⟩ := ha.stop_eq hn
  cases hr.symm.trans hr'
  rfl

end Automaton

namespace Survey

variable {a : Automaton} {c : Scope} {root : Nat}

def top (root : Nat) (path : List Nat) : Nat := path.getLast?.getD root

theorem top_append (path : List Nat) (rule : Nat) : top root (path ++ [rule]) = rule := by
  simp [top]

theorem top_mem (path : List Nat) : top root path ∈ root :: path := by
  unfold top
  cases h : path.getLast? with
  | none => simp
  | some rule => exact List.mem_cons_of_mem _ (List.mem_of_getLast? h)

/-- The place of a task: a state of the rule on top of its path, below all rules of the path. -/
structure Located (a : Automaton) (root : Nat) (path : List Nat) (n : Nat) : Prop where
  shape : ∃ kind, a.shape? n = some (kind, top root path)
  below : ∀ rule ∈ root :: path, ∃ r stack, a.rules[rule]? = some r ∧
    Run a (fun _ => True) ⟨r.start, []⟩ [] ⟨n, stack⟩

theorem Located.next {path : List Nat} {n : Nat} {t : Transition} (ha : a.WellFormed)
    (h : Located a root path n) (ht : t ∈ a.transitionsAt n)
    (step : Path a (fun _ => True) n [] t.next) : Located a root path t.next where
  shape := by
    obtain ⟨kind, hn⟩ := h.shape
    exact ha.stays.shape?_next hn ht
  below := by
    intro rule hrule
    obtain ⟨r, stack, hr, run⟩ := h.below rule hrule
    exact ⟨r, stack, hr, run.trans (step.run stack)⟩

theorem Located.enter {path : List Nat} {n rule follow : Nat} {r : Rule} (ha : a.WellFormed)
    (h : Located a root path n) (hc : .call rule follow ∈ a.transitionsAt n)
    (hr : a.rules[rule]? = some r) : Located a root (path ++ [rule]) r.start where
  shape := ⟨_, by rw [top_append]; exact (ha.inPlace rule r hr).1⟩
  below := by
    intro q hq
    rw [← List.cons_append, List.mem_append, List.mem_singleton] at hq
    rcases hq with hq | rfl
    · obtain ⟨r', stack, hr', run⟩ := h.below q hq
      exact ⟨r', follow :: stack, hr', run.trans (.single (.call hc hr))⟩
    · exact ⟨r, [], hr, .refl _⟩

theorem Located.reenters {path : List Nat} {n rule follow : Nat} (h : Located a root path n)
    (hc : .call rule follow ∈ a.transitionsAt n) (hrule : rule ∈ root :: path) :
    a.Reenters (fun _ => True) rule := by
  obtain ⟨r, stack, hr, run⟩ := h.below rule hrule
  exact ⟨r, follow, stack, hr, run.trans (.single (.call hc hr))⟩

/-! ## Nothing is forgotten -/

def Done (a : Automaton) (f : Findings) : Transition → Prop
  | .epsilon target | .predicate target _ _ => target ∈ f.seen
  | .call rule follow => ∀ r, a.rules[rule]? = some r →
      r.start ∈ f.seen ∧ (a.Nullable (fun _ => True) rule → follow ∈ f.seen)
  | t => ∀ label, a.symbolLabel t = some label → ∀ x ∈ label, ∃ set ∈ f.sets, x ∈ set.symbols

/-- A task that will see to a transition. -/
inductive Stems (a : Automaton) (f : Findings) : Task → Transition → Prop
  | take (t : Transition) (path : List Nat) : Stems a f (.take t path) t
  | epsilon (target : Nat) (path : List Nat) : Stems a f (.visit target path) (.epsilon target)
  | predicate (target : Nat) (rule index : Int) (path : List Nat) :
      Stems a f (.visit target path) (.predicate target rule index)
  | resume (rule follow : Nat) (path : List Nat) :
      Stems a f (.resume rule follow path) (.call rule follow)
  | follow {rule follow : Nat} {r : Rule} (path : List Nat) (hr : a.rules[rule]? = some r)
      (hs : r.start ∈ f.seen) : Stems a f (.visit follow path) (.call rule follow)

def Task.Placed (a : Automaton) (root : Nat) (todo : List Task) (f : Findings) : Task → Prop
  | .visit n path => Located a root path n ∧
      ∀ rule ∈ path, ∀ r, a.rules[rule]? = some r → r.start ∈ f.seen ∨ r.start = n
  | .take t path => ∃ n ∈ f.seen, Located a root path n ∧ t ∈ a.transitionsAt n ∧
      ∀ rule ∈ path, ∀ r, a.rules[rule]? = some r → r.start ∈ f.seen
  | .resume rule follow path => ∃ n ∈ f.seen, Located a root path n ∧
      .call rule follow ∈ a.transitionsAt n ∧
      (∀ rule ∈ path, ∀ r, a.rules[rule]? = some r → r.start ∈ f.seen) ∧ rule ∉ path ∧
      ∃ r, a.rules[rule]? = some r ∧
        (r.start ∈ f.seen ∨ .visit r.start (path ++ [rule]) ∈ todo)

/-- Every transition of a visited state has been taken or is seen to by a pending task of the same
rule. -/
structure Thorough (a : Automaton) (root stop : Nat) (todo : List Task) (f : Findings) : Prop where
  stacked : todo.Pairwise fun task later => later.path <+: task.path
  placed : ∀ task ∈ todo, task.Placed a root todo f
  covered : ∀ n ∈ f.seen, ∀ t ∈ a.transitionsAt n, Done a f t ∨
    ∃ task ∈ todo, Stems a f task t ∧ ∃ kind, a.shape? n = some (kind, top root task.path)
  stops : ∀ n ∈ f.seen, ∀ rule, a.shape? n = some (.ruleStop, rule) →
    if n = stop then ∃ set ∈ f.sets, Symbol.nothing ∈ set.symbols else rule ∈ f.nullable

/-! ## What a task leaves behind -/

structure Extends (f g : Findings) : Prop where
  seen : ∀ n ∈ f.seen, n ∈ g.seen
  nullable : ∀ rule ∈ f.nullable, rule ∈ g.nullable
  sets : ∀ set ∈ f.sets, set ∈ g.sets

theorem Extends.refl (f : Findings) : Extends f f := ⟨fun _ => id, fun _ => id, fun _ => id⟩

theorem Done.mono {f g : Findings} (hfg : Extends f g) {t : Transition} (h : Done a f t) :
    Done a g t := by
  cases t with
  | epsilon | predicate => exact hfg.seen _ h
  | call rule follow =>
    intro r hr
    exact ⟨hfg.seen _ (h r hr).1, fun hn => hfg.seen _ ((h r hr).2 hn)⟩
  | atom | set | notSet | wildcard =>
    intro label hl x hx
    obtain ⟨set, hset, hx⟩ := h label hl x hx
    exact ⟨set, hfg.sets set hset, hx⟩

theorem Stems.mono {f g : Findings} (hfg : Extends f g) {task : Task} {t : Transition}
    (h : Stems a f task t) : Stems a g task t := by
  cases h with
  | take => exact .take ..
  | epsilon => exact .epsilon ..
  | predicate => exact .predicate ..
  | resume => exact .resume ..
  | follow path hr hs => exact .follow path hr (hfg.seen _ hs)

/-- A task carried out leaves `new` tasks and the findings `g`, and with them everything it was
there for. -/
structure Settles (a : Automaton) (root stop : Nat) (task : Task) (rest : List Task) (f : Findings)
    (new : List Task) (g : Findings) : Prop where
  grows : Extends f g
  visits : ∀ n path, task = .visit n path → n ∈ g.seen
  paths : new.Pairwise fun task later => later.path <+: task.path
  deeper : ∀ other ∈ new, task.path <+: other.path
  placed : ∀ other ∈ new, other.Placed a root (new ++ rest) g
  duty : ∀ t, Stems a f task t → Done a g t ∨
    ∃ other ∈ new, Stems a g other t ∧ other.path = task.path
  fresh : ∀ n ∈ g.seen, n ∉ f.seen → ∀ t ∈ a.transitionsAt n, Done a g t ∨
    ∃ other ∈ new, Stems a g other t ∧ ∃ kind, a.shape? n = some (kind, top root other.path)
  stops : ∀ n ∈ g.seen, n ∉ f.seen → ∀ rule, a.shape? n = some (.ruleStop, rule) →
    if n = stop then ∃ set ∈ g.sets, Symbol.nothing ∈ set.symbols else rule ∈ g.nullable

theorem Task.Placed.mono {stop : Nat} {task other : Task} {rest new : List Task} {f g : Findings}
    (hs : Settles a root stop task rest f new g) (h : other.Placed a root (task :: rest) f) :
    other.Placed a root (new ++ rest) g := by
  cases other with
  | visit n path =>
    refine ⟨h.1, fun rule hrule r hr => ?_⟩
    exact (h.2 rule hrule r hr).imp_left (hs.grows.seen _)
  | take t path =>
    obtain ⟨n, hn, hl, ht, starts⟩ := h
    exact ⟨n, hs.grows.seen n hn, hl, ht, fun q hq r hr => hs.grows.seen _ (starts q hq r hr)⟩
  | resume rule follow path =>
    obtain ⟨n, hn, hl, ht, starts, hpath, r, hr, hstart⟩ := h
    refine ⟨n, hs.grows.seen n hn, hl, ht, fun q hq r hr => hs.grows.seen _ (starts q hq r hr),
      hpath, r, hr, ?_⟩
    rcases hstart with hstart | hstart
    · exact .inl (hs.grows.seen _ hstart)
    · rcases List.mem_cons.mp hstart with htask | hstart
      · exact .inl (hs.visits _ _ htask.symm)
      · exact .inr (List.mem_append_right _ hstart)

/-- What a task was there for is done or left to the new tasks, so nothing is forgotten. -/
theorem Thorough.advance {stop : Nat} {task : Task} {rest new : List Task} {f g : Findings}
    (h : Thorough a root stop (task :: rest) f) (hs : Settles a root stop task rest f new g) :
    Thorough a root stop (new ++ rest) g := by
  have stacked := List.pairwise_cons.mp h.stacked
  constructor
  case stacked =>
    refine List.pairwise_append.mpr ⟨hs.paths, stacked.2, fun other ho later hl => ?_⟩
    exact (stacked.1 later hl).trans (hs.deeper other ho)
  case placed =>
    intro other ho
    rcases List.mem_append.mp ho with ho | ho
    · exact hs.placed other ho
    · exact (h.placed other (List.mem_cons_of_mem _ ho)).mono hs
  case covered =>
    intro n hn t ht
    by_cases hold : n ∈ f.seen
    · rcases h.covered n hold t ht with hd | ⟨other, ho, stems, hn'⟩
      · exact .inl (hd.mono hs.grows)
      · rcases List.mem_cons.mp ho with rfl | ho
        · refine (hs.duty t stems).imp_right fun ⟨new', hnew, stems', hpath⟩ => ?_
          exact ⟨new', List.mem_append_left _ hnew, stems', hpath ▸ hn'⟩
        · exact .inr ⟨other, List.mem_append_right _ ho, stems.mono hs.grows, hn'⟩
    · refine (hs.fresh n hn hold t ht).imp_right fun ⟨other, ho, stems⟩ => ?_
      exact ⟨other, List.mem_append_left _ ho, stems⟩
  case stops =>
    intro n hn rule hrule
    by_cases hold : n ∈ f.seen
    · have := h.stops n hold rule hrule
      split at this
      case isTrue hstop =>
        obtain ⟨set, hset, hx⟩ := this
        rw [if_pos hstop]
        exact ⟨set, hs.grows.sets set hset, hx⟩
      case isFalse hstop =>
        rw [if_neg hstop]
        exact hs.grows.nullable rule this
    · exact hs.stops n hn hold rule hrule

theorem Stems.done_of_visit {f g : Findings} (hfg : Extends f g) {n : Nat} {path : List Nat}
    {t : Transition} (h : Stems a f (.visit n path) t) (hn : n ∈ g.seen) : Done a g t := by
  cases h with
  | epsilon | predicate => exact hn
  | follow path hr hs =>
    intro r hr'
    cases hr.symm.trans hr'
    exact ⟨hfg.seen _ hs, fun _ => hn⟩

theorem Settles.of_seen_eq {stop : Nat} {task : Task} {rest new : List Task} {f g : Findings}
    (same : g.seen = f.seen) (grows : Extends f g)
    (visits : ∀ n path, task = .visit n path → n ∈ g.seen)
    (paths : new.Pairwise fun task later => later.path <+: task.path)
    (deeper : ∀ other ∈ new, task.path <+: other.path)
    (placed : ∀ other ∈ new, other.Placed a root (new ++ rest) g)
    (duty : ∀ t, Stems a f task t → Done a g t ∨
      ∃ other ∈ new, Stems a g other t ∧ other.path = task.path) :
    Settles a root stop task rest f new g where
  grows := grows
  visits := visits
  paths := paths
  deeper := deeper
  placed := placed
  duty := duty
  fresh _ hn hold := absurd (same ▸ hn) hold
  stops _ hn hold := absurd (same ▸ hn) hold

theorem Settles.of_done {stop : Nat} {t : Transition} {path : List Nat} {rest : List Task}
    {f g : Findings} (same : g.seen = f.seen) (grows : Extends f g) (hd : Done a g t) :
    Settles a root stop (.take t path) rest f [] g := by
  refine .of_seen_eq same grows (by simp) .nil (by simp) (by simp) fun t' stems => ?_
  cases stems
  exact .inl hd

theorem Settles.of_step {stop : Nat} {t : Transition} {path : List Nat} {rest : List Task}
    {f g : Findings} (ha : a.WellFormed) (same : g.seen = f.seen) (grows : Extends f g)
    (hp : (Task.take t path).Placed a root (.take t path :: rest) f)
    (step : ∀ n, t ∈ a.transitionsAt n → Path a (fun _ => True) n [] t.next)
    (stems : Stems a g (.visit t.next path) t) :
    Settles a root stop (.take t path) rest f [.visit t.next path] g := by
  obtain ⟨n, hn, hl, ht, starts⟩ := hp
  refine .of_seen_eq same grows (by simp) (by simp) ?_ ?_ ?_
  · intro other ho
    cases List.mem_singleton.mp ho
    exact List.prefix_refl _
  · intro other ho
    cases List.mem_singleton.mp ho
    exact ⟨hl.next ha ht (step n ht), fun q hq r hr => .inl (same ▸ starts q hq r hr)⟩
  · rintro t' ⟨⟩
    exact .inr ⟨_, List.mem_singleton.mpr rfl, stems, rfl⟩

theorem Settles.of_visit {stop n : Nat} {path : List Nat} {rest : List Task} {f g : Findings}
    {s : State} (hs : a.states[n]? = some s) (seen : g.seen = n :: f.seen) (grows : Extends f g)
    (hp : (Task.visit n path).Placed a root (.visit n path :: rest) f)
    (hstop : ∀ rule, a.shape? n = some (.ruleStop, rule) →
      if n = stop then ∃ set ∈ g.sets, Symbol.nothing ∈ set.symbols else rule ∈ g.nullable) :
    Settles a root stop (.visit n path) rest f (s.transitions.map (Task.take · path)) g := by
  have isSeen : n ∈ g.seen := by simp [seen]
  constructor
  case grows => exact grows
  case visits =>
    rintro _ _ ⟨⟩
    exact isSeen
  case paths =>
    refine List.pairwise_map.mpr (List.pairwise_of_forall fun _ _ => ?_)
    exact List.prefix_refl _
  case deeper =>
    intro other ho
    obtain ⟨t, -, rfl⟩ := List.mem_map.mp ho
    exact List.prefix_refl _
  case placed =>
    intro other ho
    obtain ⟨t, ht, rfl⟩ := List.mem_map.mp ho
    refine ⟨n, isSeen, hp.1, by rwa [transitionsAt_of_state hs], fun q hq r hr => ?_⟩
    rcases hp.2 q hq r hr with hstart | hstart
    · exact grows.seen _ hstart
    · rwa [hstart]
  case duty => exact fun t stems => .inl (stems.done_of_visit grows isSeen)
  case fresh =>
    intro m hm hold t ht
    rw [seen, List.mem_cons] at hm
    rcases hm with rfl | hm
    · rw [transitionsAt_of_state hs] at ht
      exact .inr ⟨_, List.mem_map_of_mem ht, .take t path, hp.1.shape⟩
    · exact absurd hm hold
  case stops =>
    intro m hm hold rule hrule
    rw [seen, List.mem_cons] at hm
    rcases hm with rfl | hm
    · exact hstop rule hrule
    · exact absurd hm hold

theorem Settles.of_stop {stop n rule : Nat} {path : List Nat} {rest : List Task} {f g : Findings}
    (ha : a.WellFormed) (shape : a.shape? n = some (.ruleStop, rule))
    (seen : g.seen = n :: f.seen) (grows : Extends f g)
    (hp : (Task.visit n path).Placed a root (.visit n path :: rest) f)
    (hstop : if n = stop then ∃ set ∈ g.sets, Symbol.nothing ∈ set.symbols
      else rule ∈ g.nullable) :
    Settles a root stop (.visit n path) rest f [] g := by
  obtain ⟨s, hs, -⟩ := state_of_shape? shape
  have closed := ha.stop_closed (isStop_iff.mpr ⟨rule, shape⟩)
  rw [transitionsAt_of_state hs] at closed
  have settled := Settles.of_visit hs seen grows hp fun rule' hrule => by
    cases shape.symm.trans hrule
    exact hstop
  simpa [closed] using settled

theorem Settles.of_call {stop rule follow : Nat} {path : List Nat} {rest : List Task}
    {f : Findings} {r : Rule} (ha : a.WellFormed) (hpath : rule ∉ path)
    (hr : a.rules[rule]? = some r)
    (hp : (Task.take (.call rule follow) path).Placed a root
      (.take (.call rule follow) path :: rest) f) :
    Settles a root stop (.take (.call rule follow) path) rest f
      [.visit r.start (path ++ [rule]), .resume rule follow path] f := by
  obtain ⟨n, hn, hl, ht, starts⟩ := hp
  refine .of_seen_eq rfl (.refl f) (by simp) ?_ ?_ ?_ ?_
  · simp [Task.path]
  · simp [Task.path]
  · intro other ho
    simp only [List.mem_cons, List.not_mem_nil, or_false] at ho
    rcases ho with rfl | rfl
    · refine ⟨hl.enter ha ht hr, fun q hq r' hr' => ?_⟩
      rcases List.mem_append.mp hq with hq | hq
      · exact .inl (starts q hq r' hr')
      · cases List.mem_singleton.mp hq
        cases hr.symm.trans hr'
        exact .inr rfl
    · exact ⟨n, hn, hl, ht, starts, hpath, r, hr, .inr (by simp)⟩
  · rintro t' ⟨⟩
    exact .inr ⟨_, by simp, .resume rule follow path, rfl⟩

/-! ## Resuming calls -/

/-- Where all transitions of a rule are done, its visited states are closed under its paths. -/
theorem mem_seen_of_path {f : Findings} {rule : Nat} (ha : a.WellFormed)
    (done : ∀ n ∈ f.seen, (∃ kind, a.shape? n = some (kind, rule)) →
      ∀ t ∈ a.transitionsAt n, Done a f t)
    {n k : Nat} {w : List Symbol} (path : Path a (fun _ => True) n w k) (hw : w = [])
    (hn : n ∈ f.seen) (shape : ∃ kind, a.shape? n = some (kind, rule)) : k ∈ f.seen := by
  induction path with
  | refl n => exact hn
  | move hm _ ih =>
    obtain ⟨rfl, rfl⟩ := List.append_eq_nil_iff.mp hw
    obtain ⟨kind, hk⟩ := shape
    cases hm with
    | epsilon ht => exact ih rfl (done _ hn ⟨kind, hk⟩ _ ht) (ha.stays.shape?_next hk ht)
    | predicate ht => exact ih rfl (done _ hn ⟨kind, hk⟩ _ ht) (ha.stays.shape?_next hk ht)
  | call hc hr body hstop _ _ ih =>
    obtain ⟨rfl, rfl⟩ := List.append_eq_nil_iff.mp hw
    obtain ⟨kind, hk⟩ := shape
    have follow := (done _ hn ⟨kind, hk⟩ _ hc _ hr).2 ⟨_, _, hr, hstop, body⟩
    exact ih rfl follow (ha.stays.shape?_next hk hc)

/-- When a call is resumed, the called rule has been entered. -/
theorem Thorough.start_mem_seen {stop rule follow : Nat} {path : List Nat} {rest : List Task}
    {f : Findings} (h : Thorough a root stop (.resume rule follow path :: rest) f) :
    ∃ r, a.rules[rule]? = some r ∧ r.start ∈ f.seen := by
  obtain ⟨n, -, -, -, -, -, r, hr, hstart⟩ := h.placed _ List.mem_cons_self
  refine ⟨r, hr, hstart.resolve_right fun hvisit => ?_⟩
  -- Its visit has a longer path than the tasks behind the resumption.
  rcases List.mem_cons.mp hvisit with hvisit | hvisit
  · cases hvisit
  · have := ((List.pairwise_cons.mp h.stacked).1 _ hvisit).length_le
    simp only [Task.path, List.length_append, List.length_singleton] at this
    omega

/-- When a call is resumed, nothing of the called rule is pending, so it is known whether that rule
can end without input. -/
theorem Thorough.mem_nullable {rule follow : Nat} {path : List Nat} {rest : List Task}
    {f : Findings} {r₀ : Rule} (ha : a.WellFormed) (hroot : a.rules[root]? = some r₀)
    (h : Thorough a root r₀.stop (.resume rule follow path :: rest) f) (hne : rule ≠ root)
    (hn : a.Nullable (fun _ => True) rule) : rule ∈ f.nullable := by
  obtain ⟨n, -, -, -, -, hpath, -⟩ := h.placed _ List.mem_cons_self
  obtain ⟨r, hr, hstart⟩ := h.start_mem_seen
  have stacked := List.pairwise_cons.mp h.stacked
  have shallow : ∀ task ∈ Task.resume rule follow path :: rest, top root task.path ≠ rule := by
    intro task ht htop
    have hmem : rule ∈ root :: task.path := htop ▸ top_mem task.path
    have hmem := (List.mem_cons.mp hmem).resolve_left hne
    rcases List.mem_cons.mp ht with rfl | ht
    · exact hpath hmem
    · exact hpath ((stacked.1 task ht).subset hmem)
  have done : ∀ n ∈ f.seen, (∃ kind, a.shape? n = some (kind, rule)) →
      ∀ t ∈ a.transitionsAt n, Done a f t := by
    rintro n hn ⟨kind, shape⟩ t ht
    refine (h.covered n hn t ht).resolve_right ?_
    rintro ⟨task, htask, -, kind', shape'⟩
    cases shape.symm.trans shape'
    exact shallow task htask rfl
  obtain ⟨r', stop, hr', hstop, body⟩ := hn
  cases hr.symm.trans hr'
  have start : ∃ kind, a.shape? r.start = some (kind, rule) := ⟨_, (ha.inPlace rule r hr).1⟩
  have hseen : stop ∈ f.seen := mem_seen_of_path ha done body rfl hstart start
  obtain ⟨q, hq⟩ := isStop_iff.mp hstop
  obtain ⟨kind, hk⟩ := ha.stays.shape?_of_path body start
  cases hk.symm.trans hq
  have known := h.stops stop hseen rule hq
  rwa [if_neg] at known
  rintro rfl
  cases hq.symm.trans (ha.inPlace root r₀ hroot).2
  exact hne rfl

theorem Settles.of_resume {stop rule follow : Nat} {path : List Nat} {rest : List Task}
    {f : Findings} (ha : a.WellFormed)
    (h : Thorough a root stop (.resume rule follow path :: rest) f)
    (sound : ∀ rule ∈ f.nullable, a.Nullable (fun _ => True) rule)
    (known : a.Nullable (fun _ => True) rule → rule ∈ f.nullable) :
    Settles a root stop (.resume rule follow path) rest f
      (if f.nullable.contains rule then [.visit follow path] else []) f := by
  obtain ⟨n, hn, hl, hc, starts, -⟩ := h.placed _ List.mem_cons_self
  obtain ⟨r, hr, hstart⟩ := h.start_mem_seen
  by_cases hnull : rule ∈ f.nullable
  · rw [if_pos (by simpa using hnull)]
    obtain ⟨r', stop', hr', hstop', body⟩ := sound rule hnull
    have hl' := hl.next ha hc (.of_call hc hr' body hstop')
    refine .of_seen_eq rfl (.refl f) (by simp) (by simp) ?_ ?_ ?_
    · intro other ho
      cases List.mem_singleton.mp ho
      exact List.prefix_refl _
    · intro other ho
      cases List.mem_singleton.mp ho
      exact ⟨hl', fun q hq r hr => .inl (starts q hq r hr)⟩
    · rintro t ⟨⟩
      exact .inr ⟨_, List.mem_singleton.mpr rfl, .follow path hr hstart, rfl⟩
  · rw [if_neg (by simpa using hnull)]
    refine .of_seen_eq rfl (.refl f) (by simp) .nil (by simp) (by simp) ?_
    rintro t ⟨⟩
    refine .inl fun r' hr' => ?_
    cases hr.symm.trans hr'
    exact ⟨hstart, fun hn => absurd (known hn) hnull⟩

/-! ## The whole survey -/

/-- No rule that can be entered from a state without input both ends and enters itself again
without input. -/
def Tame (a : Automaton) (start : Nat) : Prop :=
  ∀ (rule : Nat) (r : Rule) (stack : List Nat), a.rules[rule]? = some r →
    Run a (fun _ => True) ⟨start, []⟩ [] ⟨r.start, stack⟩ →
    a.Nullable (fun _ => True) rule → ¬ a.Reenters (fun _ => True) rule

theorem Located.entered {path : List Nat} {n rule follow : Nat} {r r₀ : Rule}
    (h : Located a root path n) (hroot : a.rules[root]? = some r₀)
    (hc : .call rule follow ∈ a.transitionsAt n) (hr : a.rules[rule]? = some r) :
    ∃ stack, Run a (fun _ => True) ⟨r₀.start, []⟩ [] ⟨r.start, stack⟩ := by
  obtain ⟨r', stack, hr', run⟩ := h.below root List.mem_cons_self
  cases hroot.symm.trans hr'
  exact ⟨follow :: stack, run.trans (.single (.call hc hr))⟩

theorem Located.not_nullable {path : List Nat} {n rule follow : Nat} {r₀ : Rule}
    (h : Located a root path n) (hroot : a.rules[root]? = some r₀) (tame : Tame a r₀.start)
    (hc : .call rule follow ∈ a.transitionsAt n) (hrule : rule ∈ root :: path) :
    ¬ a.Nullable (fun _ => True) rule := by
  intro hn
  obtain ⟨r, stop, hr, rest⟩ := hn
  obtain ⟨stack, run⟩ := h.entered hroot hc hr
  exact tame rule r stack hr run ⟨r, stop, hr, rest⟩ (h.reenters hc hrule)

theorem extends_record (f : Findings) (symbols : IntervalSet) (path : List Nat)
    (following : List Symbol) : Extends f (f.record symbols path following) :=
  ⟨fun _ => id, fun _ => id, fun _ => List.mem_append_left _⟩

theorem extends_recordSymbol (t : Transition) (path : List Nat) (f : Findings) :
    Extends f (c.recordSymbol t path f) := by
  unfold Scope.recordSymbol
  split
  · exact .refl f
  · split
    · exact .refl f
    · exact extends_record ..

theorem done_recordSymbol {t : Transition} {target : Nat} (ht : t.symbolTarget? = some target)
    (path : List Nat) (f : Findings) : Done c.automaton (c.recordSymbol t path f) t := by
  have recorded : ∀ label, c.automaton.symbolLabel t = some label → ∀ x ∈ label,
      ∃ set ∈ (c.recordSymbol t path f).sets, x ∈ set.symbols := by
    intro label hl x hx
    have nonempty : label.isEmpty = false := by
      obtain ⟨range, hrange, -⟩ := hx
      simp [IntervalSet.isEmpty, List.ne_nil_of_mem hrange]
    simp only [Scope.recordSymbol, hl, nonempty, Findings.record]
    exact ⟨_, List.mem_append_right _ (List.mem_singleton.mpr rfl), hx⟩
  cases t with
  | atom | set | notSet => exact recorded
  | epsilon | wildcard | call | predicate => cases ht

def Affirming (a : Automaton) (evaluator : Option Evaluator) : Prop :=
  ∀ (n target : Nat) (rule index : Int), .predicate target rule index ∈ a.transitionsAt n →
    ∀ asked answer, (askPredicate evaluator asked ⟨rule, index⟩).1 = .ok answer → answer = true

theorem affirming_none : Affirming a none := by
  rintro n target rule index - asked answer ⟨⟩
  rfl

theorem settles_of_performed {r₀ : Rule} (ha : a.WellFormed) (hroot : a.rules[root]? = some r₀)
    (hc : c.automaton = a) (he : Affirming a c.evaluator) (hstop : c.stop = r₀.stop)
    (tame : Tame a r₀.start) {task : Task} {rest new : List Task} {f g : Findings}
    (sound : ∀ rule ∈ f.nullable, a.Nullable (fun _ => True) rule)
    (h : Thorough a root r₀.stop (task :: rest) f) (hp : Performed c f task new g) :
    Settles a root r₀.stop task rest f new g := by
  have placed := h.placed task List.mem_cons_self
  subst hc
  cases hp with
  | known hn =>
    refine .of_seen_eq rfl (.refl f) ?_ .nil (by simp) (by simp) ?_
    · rintro _ _ ⟨⟩
      exact hn
    · exact fun t stems => .inl (stems.done_of_visit (.refl f) hn)
  | missing hs =>
    obtain ⟨kind, shape⟩ := placed.1.shape
    simp [shape?, hs] at shape
  | finish =>
    have shape : c.automaton.shape? c.stop = some (.ruleStop, root) := by
      rw [hstop]
      exact (ha.inPlace root r₀ hroot).2
    refine .of_stop ha shape rfl ?_ placed ?_
    · exact ⟨fun _ => List.mem_cons_of_mem _, fun _ => id, fun _ => List.mem_append_left _⟩
    · rw [if_pos hstop]
      exact ⟨_, List.mem_append_right _ (List.mem_singleton.mpr rfl),
        IntervalSet.mem_singleton.mpr rfl⟩
  | ruleStop _ hs hn hk =>
    have shape := shape?_of_state hs
    rw [hk] at shape
    refine .of_stop ha shape rfl ?_ placed ?_
    · exact ⟨fun _ => List.mem_cons_of_mem _, fun _ => List.mem_cons_of_mem _, fun _ => id⟩
    · rw [if_neg (hstop ▸ hn)]
      exact List.mem_cons_self
  | expand _ hs hn hk =>
    refine .of_visit hs rfl ⟨fun _ => List.mem_cons_of_mem _, fun _ => id, fun _ => id⟩ placed ?_
    intro rule hrule
    rw [shape?_of_state hs] at hrule
    simp only [Option.some.injEq, Prod.mk.injEq] at hrule
    exact absurd hrule.1 hk
  | @entered rule follow path hin =>
    obtain ⟨n, -, hl, ht, starts⟩ := placed
    refine .of_done rfl (.refl f) fun r hr => ⟨starts rule hin r hr, fun hn => ?_⟩
    exact absurd hn (hl.not_nullable hroot tame ht (List.mem_cons_of_mem _ hin))
  | noRule hr =>
    refine .of_done rfl (.refl f) fun r hr' => ?_
    cases hr.symm.trans hr'
  | call hpath hr => exact .of_call ha hpath hr placed
  | predicate hask =>
    have located := placed
    obtain ⟨n, -, -, ht, -⟩ := located
    cases he n _ _ _ ht _ _ (by rw [hask])
    refine .of_step ha rfl ⟨fun _ => id, fun _ => id, fun _ => id⟩ placed ?_ (.predicate ..)
    exact fun n ht => .of_move (.predicate ht trivial)
  | epsilon target path =>
    refine .of_step ha rfl (.refl f) placed ?_ (.epsilon ..)
    exact fun n ht => .of_move (.epsilon ht)
  | wildcard target path =>
    refine .of_done rfl (extends_record ..) fun label hl x hx => ?_
    cases hl
    exact ⟨_, List.mem_append_right _ (List.mem_singleton.mpr rfl), hx⟩
  | symbol path ht =>
    exact .of_done (c.recordSymbol_seen ..) (extends_recordSymbol ..) (done_recordSymbol ht ..)
  | resume rule follow path =>
    refine .of_resume ha h sound fun hn => ?_
    obtain ⟨n, -, hl, ht, -⟩ := placed
    refine h.mem_nullable ha hroot ?_ hn
    rintro rfl
    exact hl.not_nullable hroot tame ht List.mem_cons_self hn

/-- What holds all along a survey of a tame rule. -/
structure Exact (a : Automaton) (root : Nat) (r₀ : Rule) (todo : List Task) (f : Findings) :
    Prop where
  sound : Sound a (fun _ => True) r₀ todo f
  thorough : Thorough a root r₀.stop todo f
  begun : r₀.start ∈ f.seen ∨ .visit r₀.start [] ∈ todo

theorem confirms_true (evaluator : Option Evaluator) : Confirms evaluator (fun _ => True) :=
  fun _ _ _ => trivial

theorem Exact.step {r₀ : Rule} (ha : a.WellFormed) (hroot : a.rules[root]? = some r₀)
    (hc : c.automaton = a) (he : Affirming a c.evaluator) (hstop : c.stop = r₀.stop)
    (tame : Tame a r₀.start) (task : Task) (rest : List Task) (f : Findings) (new : List Task)
    (g : Findings) (h : Exact a root r₀ (task :: rest) f) (hp : Performed c f task new g) :
    Exact a root r₀ (new ++ rest) g := by
  have settles := settles_of_performed ha hroot hc he hstop tame h.sound.2.nullable h.thorough hp
  constructor
  case sound =>
    exact h.sound.step hc hstop hroot ha.inPlace ha.stays (confirms_true _) task rest f new g hp
  case thorough => exact h.thorough.advance settles
  case begun =>
    rcases h.begun with hs | hs
    · exact .inl (settles.grows.seen _ hs)
    · rcases List.mem_cons.mp hs with hs | hs
      · exact .inl (settles.visits _ _ hs.symm)
      · exact .inr (List.mem_append_right _ hs)

theorem Exact.initial {r₀ : Rule} (ha : a.WellFormed) (hroot : a.rules[root]? = some r₀)
    (asked : List PredicateCall) : Exact a root r₀ [.visit r₀.start []] { asked := asked } where
  sound := .initial ha.inPlace hroot asked
  thorough :=
    { stacked := by simp
      placed := by
        intro task ht
        cases List.mem_singleton.mp ht
        refine ⟨⟨⟨_, (ha.inPlace root r₀ hroot).1⟩, fun rule hrule => ?_⟩, by simp⟩
        cases List.mem_singleton.mp hrule
        exact ⟨r₀, [], hroot, .refl _⟩
      covered := by simp
      stops := by simp }
  begun := .inr (List.mem_singleton.mpr rfl)

/-- A finished survey has seen every state that can be reached without input. -/
theorem Exact.mem_seen_of_run {r₀ : Rule} {f : Findings} (ha : a.WellFormed)
    (hroot : a.rules[root]? = some r₀) (h : Exact a root r₀ [] f) {n : Nat} {stack : List Nat}
    (run : Run a (fun _ => True) ⟨r₀.start, []⟩ [] ⟨n, stack⟩) : n ∈ f.seen := by
  have start : r₀.start ∈ f.seen := h.begun.resolve_right (by simp)
  have done : ∀ n ∈ f.seen, ∀ t ∈ a.transitionsAt n, Done a f t := fun n hn t ht =>
    (h.thorough.covered n hn t ht).resolve_right (by simp)
  have along : ∀ {n k rule : Nat}, Path a (fun _ => True) n [] k → n ∈ f.seen →
      (∃ kind, a.shape? n = some (kind, rule)) → k ∈ f.seen :=
    fun path => mem_seen_of_path ha (fun n hn _ => done n hn) path rfl
  suffices descent : ∀ {w k stack}, Descent a (fun _ => True) r₀.start w k stack → w = [] →
      k ∈ f.seen from descent (run_iff_descent.mp run) rfl
  intro w k stack h hw
  induction h with
  | level path =>
    subst hw
    exact along path start ⟨_, (ha.inPlace root r₀ hroot).1⟩
  | enter _ hc hr path ih =>
    obtain ⟨rfl, rfl⟩ := List.append_eq_nil_iff.mp hw
    exact along path (done _ (ih rfl) _ hc _ hr).1 ⟨_, (ha.inPlace _ _ hr).1⟩

/-! ## One set for each transition -/

/-- A symbol transition of a state has left its label in the findings, with a path by which the
state is met. -/
def Written (c : Scope) (start n : Nat) (t : Transition) (f : Findings) : Prop :=
  ∀ label, c.automaton.symbolLabel t = some label → label.isEmpty = false →
    ∃ set ∈ f.sets, set.symbols = label ∧ Met c.automaton (fun _ => True) start set.path n ∧
      (set.following = [] ∨ set.following = forcedAfter c.automaton c.ignored t)

theorem Performed.mem_sets {task : Task} {new : List Task} {f g : Findings}
    (hp : Performed c f task new g) {set : FollowSet} (hset : set ∈ f.sets) : set ∈ g.sets := by
  cases hp with
  | finish | wildcard => exact List.mem_append_left _ hset
  | symbol path => exact (extends_recordSymbol _ path f).sets set hset
  | _ => exact hset

theorem Performed.written {t : Transition} {path : List Nat} {new : List Task} {f g : Findings}
    (hp : Performed c f (.take t path) new g) {start n : Nat}
    (met : Met c.automaton (fun _ => True) start path n) : Written c start n t g := by
  intro label hl hne
  cases hp with
  | entered | noRule | call | predicate | epsilon => cases hl
  | wildcard target =>
    cases hl
    exact ⟨_, List.mem_append_right _ (List.mem_singleton.mpr rfl), rfl, met, .inl rfl⟩
  | symbol =>
    simp only [Scope.recordSymbol, hl, hne, Bool.false_eq_true, if_false]
    refine ⟨_, List.mem_append_right _ (List.mem_singleton.mpr rfl), rfl, met, ?_⟩
    dsimp only
    split
    · exact .inr rfl
    · exact .inl rfl

theorem Performed.seen {task : Task} {new : List Task} {f g : Findings}
    (hp : Performed c f task new g) {n : Nat} (hn : n ∈ g.seen) :
    n ∈ f.seen ∨ n = c.stop ∨ c.automaton.IsStop n ∨ ∃ path, task = .visit n path ∧
      ∀ t ∈ c.automaton.transitionsAt n, .take t path ∈ new := by
  cases hp with
  | finish => exact (List.mem_cons.mp hn).symm.imp_right .inl
  | ruleStop _ hs _ hk =>
    rcases List.mem_cons.mp hn with rfl | hn
    · exact .inr (.inr (.inl ⟨_, hs, hk⟩))
    · exact .inl hn
  | @expand m path s _ hs =>
    rcases List.mem_cons.mp hn with rfl | hn
    · refine .inr (.inr (.inr ⟨path, rfl, fun t ht => ?_⟩))
      rw [transitionsAt_of_state hs] at ht
      exact List.mem_map_of_mem ht
    · exact .inl hn
  | symbol path =>
    rw [Scope.recordSymbol_seen] at hn
    exact .inl hn
  | _ => exact .inl hn

/-- Every transition of a seen state has been written down or is to be taken below a path by which
the state is met. -/
def Itemised (c : Scope) (start : Nat) (todo : List Task) (f : Findings) : Prop :=
  ∀ n ∈ f.seen, ∀ t ∈ c.automaton.transitionsAt n, Written c start n t f ∨
    ∃ path, Met c.automaton (fun _ => True) start path n ∧ .take t path ∈ todo

theorem Itemised.step {r₀ : Rule} (ha : c.automaton.WellFormed)
    (hroot : c.automaton.rules[root]? = some r₀) (hstop : c.stop = r₀.stop) {task : Task}
    {rest new : List Task} {f g : Findings} (sound : task.Sound c.automaton (fun _ => True) r₀.start)
    (h : Itemised c r₀.start (task :: rest) f) (hp : Performed c f task new g) :
    Itemised c r₀.start (new ++ rest) g := by
  intro n hn t ht
  rcases hp.seen hn with hn | rfl | hn | ⟨path, rfl, taken⟩
  · rcases h n hn t ht with written | ⟨path, met, pending⟩
    · refine .inl fun label hl hne => ?_
      obtain ⟨set, hset, found⟩ := written label hl hne
      exact ⟨set, hp.mem_sets hset, found⟩
    · rcases List.mem_cons.mp pending with rfl | pending
      · exact .inl (hp.written met)
      · exact .inr ⟨path, met, List.mem_append_right _ pending⟩
  · have stop := isStop_iff.mpr ⟨_, (ha.inPlace root r₀ hroot).2⟩
    rw [hstop, ha.stop_closed stop] at ht
    cases ht
  · rw [ha.stop_closed hn] at ht
    cases ht
  · exact .inr ⟨path, sound, List.mem_append_left _ (taken t ht)⟩

theorem Scope.perform_ok (he : Unfailing c.evaluator) (f : Findings) (task : Task)
    (failure : PredicateFailure) : (c.perform f task).1 ≠ .error failure := by
  cases task with
  | visit n path =>
    simp only [Scope.perform]
    repeat' split
    all_goals simp
  | take t path =>
    cases t with
    | epsilon | atom | set | notSet | wildcard => simp [Scope.perform]
    | call rule follow =>
      simp only [Scope.perform]
      repeat' split
      all_goals simp
    | predicate target rule index =>
      obtain ⟨answer, ha⟩ := he f.asked ⟨rule, index⟩
      simp only [Scope.perform]
      split
      case h_1 hp =>
        rw [hp] at ha
        cases ha
      case h_2 => simp
  | resume => simp [Scope.perform]

theorem Scope.run_ok (he : Unfailing c.evaluator) (todo : List Task) (f : Findings) :
    ∃ g, c.run todo f = (.ok (), g) := by
  fun_induction Scope.run c todo f with
  | case1 f => exact ⟨f, rfl⟩
  | case2 f task rest failure g hp => exact absurd (by rw [hp]) (c.perform_ok he f task failure)
  | case3 f task rest new g hp ih => exact ih

end Survey

namespace FollowSets

variable {a : Automaton} {r : Rule} {sets : FollowSets}

/-- Nothing that can come first is missing. -/
structure Complete (a : Automaton) (r : Rule) (f : FollowSets) : Prop where
  offers : ∀ {n : Nat} {stack : List Nat} {x : Symbol},
    Run a (fun _ => True) ⟨r.start, []⟩ [] ⟨n, stack⟩ → a.Offers n x →
      ∃ set ∈ f.sets, x ∈ set.symbols
  ends : Path a (fun _ => True) r.start [] r.stop → ∃ set ∈ f.sets, Symbol.nothing ∈ set.symbols

theorem ofRule_ok_of_unfailing {evaluator : Option Evaluator} (he : Unfailing evaluator)
    (a : Automaton) (ignored : List Symbol) (asked : List PredicateCall) (r : Rule) :
    ∃ sets, (ofRule a ignored evaluator asked r).result = .ok sets := by
  obtain ⟨g, hg⟩ := Survey.Scope.run_ok (c := ⟨a, ignored, evaluator, r.stop⟩) he
    [.visit r.start []] { asked := asked }
  exact ⟨ofSets g.sets, by simp only [ofRule, hg]; rfl⟩

theorem ofRule_ok (a : Automaton) (ignored : List Symbol) (asked : List PredicateCall) (r : Rule) :
    ∃ sets, (ofRule a ignored none asked r).result = .ok sets :=
  ofRule_ok_of_unfailing unfailing_none a ignored asked r

theorem ofRule_complete {rule : Nat} (ha : a.WellFormed) (hr : a.rules[rule]? = some r)
    (tame : Survey.Tame a r.start) {ignored : List Symbol} {evaluator : Option Evaluator}
    {asked : List PredicateCall} (he : Survey.Affirming a evaluator)
    (h : (ofRule a ignored evaluator asked r).result = .ok sets) : sets.Complete a r := by
  obtain ⟨found, hrun, rfl⟩ := run_of_ofRule h
  have finish := Survey.Scope.run_preserves (Survey.Exact.step ha hr rfl he rfl tame)
    (Survey.Exact.initial ha hr asked) hrun
  constructor
  case offers =>
    rintro n stack x run ⟨t, ht, label, hl, hx⟩
    have hn := finish.mem_seen_of_run ha hr run
    have done := (finish.thorough.covered n hn t ht).resolve_right (by simp)
    cases t with
    | atom | set | notSet | wildcard => exact done label hl x hx
    | epsilon | call | predicate => cases hl
  case ends =>
    intro path
    have hn := finish.mem_seen_of_run ha hr (path.run [])
    have stop := finish.thorough.stops _ hn rule (ha.inPlace rule r hr).2
    rwa [if_pos rfl] at stop

/-- Every symbol transition met on the way gives a set of its own. -/
theorem ofRule_items {rule : Nat} (ha : a.WellFormed) (hr : a.rules[rule]? = some r)
    (tame : Survey.Tame a r.start) {ignored : List Symbol} {evaluator : Option Evaluator}
    {asked : List PredicateCall} (he : Survey.Affirming a evaluator)
    (h : (ofRule a ignored evaluator asked r).result = .ok sets) {n : Nat} {stack : List Nat}
    (run : Run a (fun _ => True) ⟨r.start, []⟩ [] ⟨n, stack⟩) {t : Transition}
    (ht : t ∈ a.transitionsAt n) {label : IntervalSet} (hl : a.symbolLabel t = some label)
    (hne : label.isEmpty = false) :
    ∃ set ∈ sets.sets, set.symbols = label ∧ Met a (fun _ => True) r.start set.path n ∧
      (set.following = [] ∨ set.following = forcedAfter a ignored t) := by
  obtain ⟨found, hrun, rfl⟩ := run_of_ofRule h
  let scope : Survey.Scope := ⟨a, ignored, evaluator, r.stop⟩
  let Inv (todo : List Survey.Task) (f : Survey.Findings) : Prop :=
    Survey.Exact a rule r todo f ∧ Survey.Itemised scope r.start todo f
  have step : ∀ task rest f new g, Inv (task :: rest) f → Survey.Performed scope f task new g →
      Inv (new ++ rest) g := by
    rintro task rest f new g ⟨exact_, items⟩ hp
    exact ⟨exact_.step ha hr rfl he rfl tame task rest f new g hp,
      items.step ha hr rfl (exact_.sound.1 task List.mem_cons_self) hp⟩
  have initial : Inv [.visit r.start []] { asked := asked } :=
    ⟨.initial ha hr asked, fun n hn => by cases hn⟩
  obtain ⟨finish, items⟩ := Survey.Scope.run_preserves step initial hrun
  have seen := finish.mem_seen_of_run ha hr run
  exact (items n seen t ht).resolve_right (by simp) label hl hne

end FollowSets

end GrammarCompletion
