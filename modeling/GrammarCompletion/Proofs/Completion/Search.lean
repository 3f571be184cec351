import GrammarCompletion.Completion.Collect
import GrammarCompletion.Proofs.Completion.Candidates
import GrammarCompletion.Proofs.Completion.FirstSets

/-!
# What a search does

A search changes its session and can be interrupted. `Yields` says what it comes to; the rules below
give, for every part of a search, what it returns and what it leaves in the session, so that a property
of all searches is an invariant of these steps.
-/

namespace GrammarCompletion

open Automaton

/-! ## Results of a search -/

section
variable {α : Type}

theorem Search.get_bind (f : Session → Search α) (s : Session) : (get >>= f) s = f s s := rfl

theorem Search.exists_ok_of_run' {x : Search α} {s : Session} {v : α} (h : x.run' s = some v) :
    ∃ s', x s = .ok v s' := by
  have unfolded : EStateM.run' (fun _ => x s) s = some v := h
  cases hx : x s with
  | ok v' s' =>
    rw [hx] at unfolded
    cases unfolded
    exact ⟨s', rfl⟩
  | error failure s' =>
    rw [hx] at unfolded
    cases unfolded

end

/-- A search comes to an end with the property, or is interrupted as it may be. -/
def Yields {α : Type} (may : Interruption → Prop) (x : Search α) (s : Session)
    (post : α → Session → Prop) : Prop :=
  match x s with
  | .ok v s' => post v s'
  | .error reason _ => may reason

namespace Yields

variable {α β : Type} {may : Interruption → Prop} {s : Session}

theorem mono {x : Search α} {post post' : α → Session → Prop} (h : Yields may x s post)
    (weaker : ∀ v s', post v s' → post' v s') : Yields may x s post' := by
  unfold Yields at h ⊢
  split at h
  · exact weaker _ _ h
  · exact h

@[simp] theorem pure_iff {v : α} {post : α → Session → Prop} :
    Yields may (pure v) s post ↔ post v s := Iff.rfl

@[simp] theorem bind_iff {x : Search α} {f : α → Search β} {post : β → Session → Prop} :
    Yields may (x >>= f) s post ↔
      Yields may x s fun v s' => Yields may (f v) s' post := by
  simp only [Yields, bind, EStateM.bind]
  cases x s <;> rfl

@[simp] theorem get_iff {post : Session → Session → Prop} :
    Yields may get s post ↔ post s s := Iff.rfl

@[simp] theorem set_iff {t : Session} {post : PUnit → Session → Prop} :
    Yields may (set t) s post ↔ post ⟨⟩ t := Iff.rfl

@[simp] theorem modify_iff {f : Session → Session} {post : PUnit → Session → Prop} :
    Yields may (modify f) s post ↔ post ⟨⟩ (f s) := Iff.rfl

@[simp] theorem throw_iff {reason : Interruption} {post : α → Session → Prop} :
    Yields may (throw reason) s post ↔ may reason := Iff.rfl

theorem exists_ok {x : Search α} {post : α → Session → Prop} (h : Yields (fun _ => False) x s post) :
    ∃ v s', x s = .ok v s' ∧ post v s' := by
  unfold Yields at h
  split at h
  case h_1 v s' hx => exact ⟨v, s', hx, h⟩
  case h_2 => exact h.elim

theorem of_ok {x : Search α} {post : α → Session → Prop} (h : Yields may x s post) {v : α}
    {s' : Session} (hx : x s = .ok v s') : post v s' := by
  simpa only [Yields, hx] using h

end Yields

/-! ## Follow sets of a request -/

/-- The follow sets are those of a survey of the rule, whose evaluator passed only predicates that
hold. -/
def FollowSets.Surveyed (a : Automaton) (holds : PredicateCall → Prop) (r : Rule)
    (sets : FollowSets) : Prop :=
  ∃ ignored evaluator asked, Confirms evaluator holds ∧
    (FollowSets.ofRule a ignored evaluator asked r).result = .ok sets

/-- What is stored for the rules of an automaton was found by surveys of it. -/
def Cache.Faithful (a : Automaton) (identity : CacheIdentity) (holds : PredicateCall → Prop)
    (cache : Cache) : Prop :=
  ∀ (rule : Nat) (r : Rule) (sets : FollowSets), a.rules[rule]? = some r →
    cache.find? ⟨r.start, identity⟩ = some sets → sets.Surveyed a holds r

/-- What is stored for the rules of an automaton is what `truth` allows. -/
def Cache.Keeps (a : Automaton) (identity : CacheIdentity) (truth : Rule → FollowSets → Prop)
    (cache : Cache) : Prop :=
  ∀ (rule : Nat) (r : Rule) (sets : FollowSets), a.rules[rule]? = some r →
    cache.find? ⟨r.start, identity⟩ = some sets → truth r sets

section
variable {a : Automaton} {identity : CacheIdentity} {holds : PredicateCall → Prop}
  {truth : Rule → FollowSets → Prop}

theorem Cache.keeps_empty : Cache.Keeps a identity truth {} := by
  intro rule r sets _ h
  cases h

theorem Cache.faithful_empty : Cache.Faithful a identity holds {} := Cache.keeps_empty

theorem Cache.Keeps.store {cache : Cache} (h : cache.Keeps a identity truth)
    (hplace : a.RulesInPlace) {rule : Nat} {r : Rule} {sets : FollowSets}
    (hr : a.rules[rule]? = some r) (hs : truth r sets) :
    (cache.store ⟨r.start, identity⟩ sets).Keeps a identity truth := by
  intro rule' r' sets' hr' found
  simp only [Cache.find?, Cache.store, List.lookup_cons] at found
  split at found
  case h_1 same =>
    have starts : r'.start = r.start := by simpa using same
    cases hplace.eq_of_start hr' hr starts
    cases found
    exact hs
  case h_2 => exact h rule' r' sets' hr' found

end

section
variable {q : Request} {truth : Rule → FollowSets → Prop} {s : Session} {may : Interruption → Prop}

/-- What the surveys of a request find is what `truth` allows. -/
def Request.Finds (q : Request) (truth : Rule → FollowSets → Prop) : Prop :=
  ∀ (asked : List PredicateCall) (r : Rule) (sets : FollowSets),
    (FollowSets.ofRule q.engine.automaton q.engine.ignored q.evaluator asked r).result = .ok sets →
    truth r sets

theorem Request.finds_surveyed {holds : PredicateCall → Prop}
    (confirms : Confirms q.evaluator holds) :
    q.Finds (FollowSets.Surveyed q.engine.automaton holds) :=
  fun _ _ _ found => ⟨_, _, _, confirms, found⟩

theorem followSets_yields (hplace : q.engine.automaton.RulesInPlace) {rule : Nat} {r : Rule}
    (hr : q.engine.automaton.rules[rule]? = some r) (finds : q.Finds truth)
    (hs : s.cache.Keeps q.engine.automaton q.engine.identity truth)
    (hf : (∀ failure, may (.predicate failure)) ∨ Unfailing q.evaluator) :
    Yields may (Session.followSets q r) s fun sets s' => ∃ cache asked,
      s' = { s with cache := cache, asked := asked } ∧
      cache.Keeps q.engine.automaton q.engine.identity truth ∧ truth r sets := by
  simp only [Session.followSets, Yields.bind_iff, Yields.get_iff]
  split
  case h_1 sets found => exact ⟨s.cache, s.asked, rfl, hs, hs rule r sets hr found⟩
  case h_2 =>
    split
    case h_1 failure failed =>
      simp only [Yields.bind_iff, Yields.set_iff, Yields.throw_iff]
      rcases hf with hf | unfailing
      · exact hf failure
      · obtain ⟨sets, hsets⟩ := FollowSets.ofRule_ok_of_unfailing unfailing q.engine.automaton
          q.engine.ignored s.asked r
        cases hsets.symm.trans failed
    case h_2 sets found =>
      simp only [Yields.bind_iff, Yields.set_iff, Yields.pure_iff]
      have known := finds s.asked r sets found
      exact ⟨_, _, rfl, Cache.Keeps.store hs hplace hr known, known⟩

theorem ask_yields (hf : (∀ failure, may (.predicate failure)) ∨ Unfailing q.evaluator)
    (call : PredicateCall) :
    Yields may (Session.ask q call) s fun answer s' => ∃ asked,
      s' = { s with asked := asked } ∧
      (askPredicate q.evaluator s.asked call).1 = .ok answer := by
  simp only [Session.ask, Yields.bind_iff, Yields.get_iff, Yields.set_iff]
  split
  case h_1 answer found => exact ⟨_, rfl, found⟩
  case h_2 failure failed =>
    rcases hf with hf | unfailing
    · exact hf failure
    · obtain ⟨answer, answered⟩ := unfailing s.asked call
      cases answered.symm.trans failed

end

def Automaton.ListableLabels (a : Automaton) : Prop :=
  ∀ n, ∀ t ∈ a.transitionsAt n, ∀ label, a.symbolLabel t = some label → label.Listable

theorem FollowSets.Stem.listable {a : Automaton} {ignored : List Symbol} {sets : FollowSets}
    (h : sets.Stem a ignored) (labels : a.ListableLabels) : sets.Listable :=
  h.symbols (IntervalSet.listable_singleton _) labels

theorem FollowSets.Surveyed.listable {a : Automaton} {holds : PredicateCall → Prop} {r : Rule}
    {sets : FollowSets} (h : sets.Surveyed a holds r) (labels : a.ListableLabels) :
    sets.Listable := by
  obtain ⟨_, _, _, -, found⟩ := h
  exact (stem_of_ofRule found).listable labels

/-- Interruptions other than those that may happen do not: no question fails, or all labels can be
listed. -/
structure Request.Permits (q : Request) (may : Interruption → Prop) : Prop where
  questions : (∀ failure, may (.predicate failure)) ∨ Unfailing q.evaluator
  labels : may .overlong ∨ q.engine.automaton.ListableLabels

theorem Request.permits_all (q : Request) : q.Permits fun _ => True :=
  ⟨.inl fun _ => trivial, .inl trivial⟩

/-- The follow sets that are come upon can be listed, unless one of them may be too long. -/
def FollowSets.Permitted (may : Interruption → Prop) (truth : Rule → FollowSets → Prop) : Prop :=
  may .overlong ∨ ∀ r sets, truth r sets → sets.Listable

theorem Request.record_apply (change : Candidates → Except Overlong Candidates) (s : Session) :
    Request.record change s =
      match change s.candidates with
      | .ok c => .ok ⟨⟩ { s with candidates := c }
      | .error _ => .error .overlong s := by
  unfold Request.record
  rw [Search.get_bind]
  cases change s.candidates <;> rfl

theorem record_yields {s : Session} {may : Interruption → Prop}
    {change : Candidates → Except Overlong Candidates}
    (hf : may .overlong ∨ ∃ d, change s.candidates = .ok d) :
    Yields may (Request.record change) s fun _ s' => ∃ d,
      change s.candidates = .ok d ∧ s' = { s with candidates := d } := by
  rw [Yields, Request.record_apply]
  cases made : change s.candidates with
  | ok d => exact ⟨d, rfl, rfl⟩
  | error fault =>
    rcases hf with hf | ⟨d, other⟩
    · exact hf
    · cases made.symm.trans other

/-! ## Ends -/

theorem mem_insertAscending {x y : Nat} {ends : List Nat} :
    y ∈ insertAscending x ends ↔ y = x ∨ y ∈ ends := by
  fun_induction insertAscending x ends with
  | case1 => simp
  | case2 => simp
  | case3 z ends _ _ ih => simp [ih, or_left_comm]
  | case4 z ends _ _ =>
    have : x = z := by omega
    simp [this]

theorem mem_unionEnds {y : Nat} {ends more : List Nat} :
    y ∈ unionEnds ends more ↔ y ∈ ends ∨ y ∈ more := by
  unfold unionEnds
  induction more generalizing ends with
  | nil => simp
  | cons x more ih =>
    rw [List.foldl_cons, ih, mem_insertAscending, List.mem_cons, or_assoc, or_left_comm]

/-! ## The tokens before the caret -/

namespace Request

variable {q : Request}

def word (q : Request) : List Symbol := q.window.toList.dropLast.map Token.symbol

/-- The tokens from position `i` to position `j` have the types `u`. -/
def Reads (q : Request) (i : Nat) (u : List Symbol) (j : Nat) : Prop :=
  q.word.drop i = u ++ q.word.drop j ∧ i ≤ j ∧ j ≤ q.word.length

theorem length_word : q.word.length = q.window.size - 1 := by simp [word]

theorem atCaret_iff {index : Nat} : q.atCaret index = true ↔ q.word.length ≤ index := by
  simp only [atCaret, length_word, decide_eq_true_eq]
  omega

theorem word_getElem? {index : Nat} (h : index < q.word.length) :
    q.word[index]? = some (q.symbolAt index) := by
  rw [length_word] at h
  have inside : index < q.window.size := by omega
  have before : index + 1 < q.window.size := by omega
  simp [word, symbolAt, inside, List.getElem?_dropLast, before]

theorem Reads.refl {i : Nat} (h : i ≤ q.word.length) : q.Reads i [] i := ⟨rfl, Nat.le_refl i, h⟩

theorem Reads.trans {i j k : Nat} {u v : List Symbol} (h : q.Reads i u j) (h' : q.Reads j v k) :
    q.Reads i (u ++ v) k := by
  refine ⟨?_, Nat.le_trans h.2.1 h'.2.1, h'.2.2⟩
  rw [h.1, h'.1, List.append_assoc]

theorem Reads.token {i : Nat} (h : q.atCaret i = false) : q.Reads i [q.symbolAt i] (i + 1) := by
  have before : i < q.word.length := by
    rw [← Bool.not_eq_true, atCaret_iff] at h
    omega
  obtain ⟨inside, same⟩ := List.getElem?_eq_some_iff.mp (word_getElem? before)
  refine ⟨?_, Nat.le_succ i, before⟩
  rw [List.drop_eq_getElem_cons inside, same]
  rfl

theorem Reads.eq_word {j : Nat} {u : List Symbol} (h : q.Reads 0 u j) (hj : q.atCaret j = true) :
    u = q.word := by
  have hu := h.1
  rw [List.drop_zero, List.drop_eq_nil_of_le (atCaret_iff.mp hj), List.append_nil] at hu
  exact hu.symm

theorem Reads.length {i j : Nat} {u : List Symbol} (h : q.Reads i u j) : i + u.length = j := by
  have lengths := congrArg List.length h.1
  have := h.2
  simp only [List.length_append, List.length_drop] at lengths
  omega

theorem Reads.eq_nil {i j : Nat} {u : List Symbol} (h : q.Reads i u j) (hc : q.atCaret i = true) :
    u = [] := by
  have length := h.length
  have bound := h.2.2
  rw [atCaret_iff] at hc
  exact List.eq_nil_of_length_eq_zero (by omega)

/-! ## Taking a transition -/

/-- What taking a transition at position `index` can do: the visits it leads to, the last one first,
and the session after it. `called` is what entering a rule there can come to. -/
inductive Taken (q : Request) (frames : List Frame) (index : Nat)
    (called : Nat → List Nat → Session → Prop) (s : Session) :
    Transition → List Visit → Session → Prop
  | call {rule follow : Nat} {ends : List Nat} {s' : Session} (h : called rule ends s') :
      Taken q frames index called s (.call rule follow) (ends.reverse.map (Visit.mk follow)) s'
  | predicate {target : Nat} {rule number : Int} {answer : Bool} {asked : List PredicateCall}
      (h : (askPredicate q.evaluator s.asked ⟨rule, number⟩).1 = .ok answer) :
      Taken q frames index called s (.predicate target rule number)
        (if answer then [⟨target, index⟩] else []) { s with asked := asked }
  | epsilon (target : Nat) :
      Taken q frames index called s (.epsilon target) [⟨target, index⟩]
        { s with
          candidates :=
            if q.atCaret index then s.candidates.addOutermost q.engine frames []
            else s.candidates }
  | wildcard {target : Nat} (h : q.atCaret index = false) :
      Taken q frames index called s (.wildcard target) [⟨target, index + 1⟩] s
  | symbol {t : Transition} {target : Nat} {label : IntervalSet} (h : q.atCaret index = false)
      (ht : t.symbolTarget? = some target) (hl : q.engine.automaton.symbolLabel t = some label)
      (hx : label.contains (q.symbolAt index) = true) :
      Taken q frames index called s t [⟨target, index + 1⟩] s
  | caret {t : Transition} {label : IntervalSet} {following : List Symbol} {d : Candidates}
      (h : q.atCaret index = true) (hl : q.engine.automaton.symbolLabel t = some label)
      (hf : following = [] ∨ following = forcedAfter q.engine.automaton q.engine.ignored t)
      (hd : s.candidates.addBelow q.engine frames [] label following = .ok d) :
      Taken q frames index called s t [] { s with candidates := d }
  | refused {t : Transition} {target : Nat} (ht : t.symbolTarget? = some target)
      (h : ∀ label, q.engine.automaton.symbolLabel t = some label → label.isEmpty = true ∨
        q.atCaret index = false ∧ label.contains (q.symbolAt index) = false) :
      Taken q frames index called s t [] s

variable {truth : Rule → FollowSets → Prop} {frames : List Frame} {index : Nat}
  {called : Nat → List Nat → Session → Prop} {call : Nat → Nat → Search (List Nat)}
  {may : Interruption → Prop} {s : Session}

theorem record_below_yields {t : Transition} {label : IntervalSet} {following : List Symbol}
    (hcaret : q.atCaret index = true) (hl : q.engine.automaton.symbolLabel t = some label)
    (hfollowing : following = [] ∨ following = forcedAfter q.engine.automaton q.engine.ignored t)
    (hf : may .overlong ∨ label.Listable) (pending : List Visit) :
    Yields may
      (do record fun c => c.addBelow q.engine frames [] label following
          return pending)
      s fun p s' => ∃ new, p = new ++ pending ∧ Taken q frames index called s t new s' := by
  simp only [Yields.bind_iff, Yields.pure_iff]
  refine (record_yields (hf.imp_right Candidates.addBelow_of_listable)).mono ?_
  rintro _ _ ⟨d, hd, rfl⟩
  exact ⟨[], rfl, .caret hcaret hl hfollowing hd⟩

theorem takeSymbol_yields {t : Transition} {target : Nat} (ht : t.symbolTarget? = some target)
    (hf : may .overlong ∨ ∀ label, q.engine.automaton.symbolLabel t = some label → label.Listable)
    (pending : List Visit) :
    Yields may (q.takeSymbol frames index t target pending) s fun p s' => ∃ new,
      p = new ++ pending ∧ Taken q frames index called s t new s' := by
  unfold takeSymbol
  split
  case h_1 hl => exact ⟨[], rfl, .refused ht (by simp [hl])⟩
  case h_2 label hl =>
    split
    case isTrue hempty => exact ⟨[], rfl, .refused ht (by simp [hl, hempty])⟩
    case isFalse =>
      split
      case isTrue hcaret =>
        refine record_below_yields hcaret hl ?_ (hf.imp_right fun listable => listable label hl) pending
        split
        · exact .inr rfl
        · exact .inl rfl
      case isFalse hcaret =>
        rw [Bool.not_eq_true] at hcaret
        split
        case isTrue hx => exact ⟨[_], rfl, .symbol hcaret ht hl hx⟩
        case isFalse hx => exact ⟨[], rfl, .refused ht (by simp [hl, hcaret, hx])⟩

theorem foldl_cons_visits (follow : Nat) (ends : List Nat) (pending : List Visit) :
    ends.foldl (fun pending stop => ⟨follow, stop⟩ :: pending) pending =
      ends.reverse.map (Visit.mk follow) ++ pending := by
  induction ends generalizing pending with
  | nil => rfl
  | cons stop ends ih => simp [ih]

theorem take_yields (called : Nat → List Nat → Session → Prop) {t : Transition}
    (hf : (∀ failure, may (.predicate failure)) ∨ Unfailing q.evaluator)
    (listable : may .overlong ∨
      ∀ label, q.engine.automaton.symbolLabel t = some label → label.Listable)
    (pending : List Visit)
    (hcall : ∀ rule follow, t = .call rule follow →
      Yields may (call rule index) s (called rule)) :
    Yields may (q.take call frames index t pending) s fun p s' => ∃ new,
      p = new ++ pending ∧ Taken q frames index called s t new s' := by
  cases t with
  | call rule follow =>
    simp only [take, Yields.bind_iff, Yields.pure_iff]
    refine (hcall rule follow rfl).mono fun ends s' h => ?_
    exact ⟨_, foldl_cons_visits follow ends pending, .call h⟩
  | predicate target rule number =>
    simp only [take, Yields.bind_iff]
    refine (ask_yields hf _).mono ?_
    rintro answer _ ⟨asked, rfl, h⟩
    cases answer with
    | false => exact ⟨[], rfl, .predicate h⟩
    | true => exact ⟨[_], rfl, .predicate h⟩
  | wildcard target =>
    simp only [take]
    split
    case isTrue hcaret =>
      exact record_below_yields hcaret rfl (.inl rfl)
        (listable.imp_right fun listable => listable _ rfl) pending
    case isFalse hcaret => exact ⟨[_], rfl, .wildcard (by simpa using hcaret)⟩
  | epsilon target =>
    have taken : Taken q frames index called s (.epsilon target) [⟨target, index⟩] _ :=
      .epsilon target
    simp only [take]
    split
    case isTrue hcaret =>
      rw [if_pos hcaret] at taken
      exact ⟨[_], rfl, taken⟩
    case isFalse hcaret =>
      rw [if_neg hcaret] at taken
      exact ⟨[_], rfl, taken⟩
  | atom target | set target | notSet target =>
    simp only [take]
    exact takeSymbol_yields rfl listable pending

/-- An invariant of every transition of a state that is taken holds when all are taken. -/
theorem takeAll_yields (Inv : List Transition → List Visit → Session → Prop)
    {transitions : List Transition}
    (step : ∀ t ∈ transitions, ∀ rest pending s, Inv (t :: rest) pending s →
      Yields may (q.take call frames index t pending) s (Inv rest))
    {pending : List Visit} (h : Inv transitions pending s) :
    Yields may (q.takeAll call frames index transitions pending) s (Inv []) := by
  induction transitions generalizing pending s with
  | nil => exact h
  | cons t rest ih =>
    rw [List.forall_mem_cons] at step
    simp only [takeAll, Yields.bind_iff]
    exact (step.1 rest pending s h).mono fun _ _ => ih step.2

/-! ## Walking -/

theorem isStale_eq_false {expanded : Std.TreeSet Visit Visit.compare} {v : Visit} :
    q.isStale expanded v = false ↔ v ∉ expanded ∧
      v.state < q.engine.automaton.states.size ∧ v.index < q.window.size := by
  rw [← Std.TreeSet.contains_iff_mem, Bool.not_eq_true]
  simp only [isStale, Bool.or_eq_false_iff, Bool.not_eq_false', Bool.and_eq_true,
    decide_eq_true_eq]

/-- An invariant of every visit holds at the end of a walk, when nothing is pending. Visits that are
not made are dropped, the ends of the rule are collected, and otherwise all transitions are
taken. -/
theorem walkFrom_yields
    (Inv : Std.TreeSet Visit Visit.compare → List Nat → List Visit → Session → Prop)
    (drop : ∀ expanded ends v pending s, q.isStale expanded v = true →
      Inv expanded ends (v :: pending) s → Inv expanded ends pending s)
    (stop : ∀ expanded ends v rest s, q.isStale expanded v = false →
      q.engine.automaton.IsStop v.state → Inv expanded ends (v :: rest) s →
      Inv (expanded.insert v) (insertAscending v.index ends) rest
        { s with statesProcessed := s.statesProcessed + 1 })
    (expand : ∀ expanded ends v rest s, q.isStale expanded v = false →
      ¬ q.engine.automaton.IsStop v.state → Inv expanded ends (v :: rest) s →
      Yields may (q.takeAll call frames v.index (q.engine.automaton.transitionsAt v.state) rest)
        { s with statesProcessed := s.statesProcessed + 1 } (Inv (expanded.insert v) ends))
    {expanded : Std.TreeSet Visit Visit.compare} {ends : List Nat} {pending : List Visit}
    (h : Inv expanded ends pending s) :
    Yields may (q.walkFrom call frames expanded ends pending) s
      fun ends' s' => ∃ expanded', Inv expanded' ends' [] s' := by
  have dropped : ∀ {expanded ends s} pending, Inv expanded ends pending s →
      Inv expanded ends (pending.dropWhile (q.isStale expanded)) s := by
    intro expanded ends s pending
    induction pending with
    | nil => exact id
    | cons v pending ih =>
      intro h
      rw [List.dropWhile_cons]
      split
      case isTrue stale => exact ih (drop _ _ _ _ _ stale h)
      case isFalse => exact h
  induction expanded, ends, pending using walkFrom.induct q generalizing s with
  | case1 expanded ends pending next =>
    rw [walkFrom]
    split
    case h_1 => exact ⟨expanded, next ▸ dropped pending h⟩
    case h_2 v rest next' => exact absurd (next.symm.trans next') (by simp)
  | case2 expanded ends pending v rest next ih ih' ih'' =>
    have fresh := isStale_head next
    have here := dropped pending h
    rw [next] at here
    rw [walkFrom]
    split
    case h_1 next' => exact absurd (next.symm.trans next') (by simp)
    case h_2 v' rest' next' =>
      cases next.symm.trans next'
      simp only [Yields.bind_iff, Yields.modify_iff]
      split
      case h_1 missing =>
        have inside := (isStale_eq_false.mp fresh).2.1
        rw [Array.getElem?_eq_none_iff] at missing
        omega
      case h_2 state found =>
        split
        case isTrue kind => exact ih' (stop _ _ _ _ _ fresh ⟨state, found, kind⟩ here)
        case isFalse kind =>
          have inner : ¬ q.engine.automaton.IsStop v.state := by
            rintro ⟨state', found', kind'⟩
            cases found.symm.trans found'
            exact kind kind'
          have taken := expand _ _ _ _ _ fresh inner here
          rw [transitionsAt_of_state found] at taken
          simp only [Yields.bind_iff]
          exact taken.mono fun _ _ => ih'' _

/-! ## Growing a seed -/

/-- The result of growing is that of a last round. `Pre` is kept from round to round; what was
remembered in a round is forgotten before the next one. -/
theorem grow_yields {bound : Nat} {entry : RuleEntry}
    {round : Option (List Nat) → Search (List Nat)} (Pre : Option (List Nat) → Session → Prop)
    (Found : Option (List Nat) → List Nat → Session → Prop)
    (step : ∀ seed s, Pre seed s → Yields may (round seed) s fun found s' =>
      Found seed found s' ∧ Pre (some (unionEnds found (seed.getD []))) { s' with memo := s.memo })
    {seed : Option (List Nat)} (h : Pre seed s) :
    Yields may (grow bound entry round seed) s fun ends s' => ∃ seed found,
      Found seed found s' ∧
      if entry ∈ s'.reentered then
        ends = unionEnds found (seed.getD []) ∧ outgrows bound seed ends = false
      else ends = found := by
  induction seed using grow.induct bound generalizing s with
  | case1 seed ih =>
    rw [grow]
    simp only [Yields.bind_iff, Yields.get_iff]
    refine (step seed s h).mono fun found s' ⟨hfound, again⟩ => ?_
    split
    case isTrue reentered =>
      rw [List.contains_iff_mem] at reentered
      split
      case isTrue more =>
        simp only [Yields.bind_iff, Yields.modify_iff]
        exact ih found more again
      case isFalse more =>
        rw [Bool.not_eq_true] at more
        exact ⟨seed, found, hfound, by simp [reentered, more]⟩
    case isFalse alone =>
      rw [List.contains_iff_mem] at alone
      exact ⟨seed, found, hfound, by simp [alone]⟩

/-! ## Entering a rule -/

/-- What entering a rule comes to where the rule is not walked: it is known, is being walked already,
does not exist, is entered at the caret or cannot match the next token. -/
inductive Entered (q : Request) (truth : Rule → FollowSets → Prop) (frames : List Frame)
    (e : RuleEntry) (s : Session) : List Nat → Session → Prop
  | known {ends : List Nat} (h : s.memo.lookup e = some ends) : Entered q truth frames e s ends s
  | again {frame : Frame} (h : s.memo.lookup e = none)
      (hf : frames.find? (fun frame => frame.entry = e) = some frame) :
      Entered q truth frames e s (frame.seed.getD []) { s with reentered := s.reentered.insert e }
  | missing (h : q.engine.automaton.rules[e.rule]? = none) : Entered q truth frames e s [] s
  | caret {r : Rule} {sets : FollowSets} {cache : Cache} {asked : List PredicateCall}
      {d : Candidates}
      (hr : q.engine.automaton.rules[e.rule]? = some r) (hc : q.atCaret e.index = true)
      (hcache : cache.Keeps q.engine.automaton q.engine.identity truth)
      (hsets : truth r sets)
      (hd : s.candidates.addFollowSets q.engine frames e.rule sets = .ok d) :
      Entered q truth frames e s (if sets.canEnd then [e.index] else [])
        { s with cache := cache, asked := asked, candidates := d }
  | pruned {r : Rule} {sets : FollowSets} {cache : Cache} {asked : List PredicateCall}
      (hr : q.engine.automaton.rules[e.rule]? = some r) (hc : q.atCaret e.index = false)
      (hcache : cache.Keeps q.engine.automaton q.engine.identity truth)
      (hsets : truth r sets) (hend : sets.canEnd = false)
      (hnext : sets.combined.contains (q.symbolAt e.index) = false) :
      Entered q truth frames e s [] { s with cache := cache, asked := asked }

/-- The walk of a rule from an entry below the frames, with a seed for the entry. -/
def round (q : Request) (frames : List Frame) (e : RuleEntry) (r : Rule)
    (seed : Option (List Nat)) : Search (List Nat) :=
  q.walk (fun callee place => q.enterRule (⟨e, seed⟩ :: frames) callee place)
    (⟨e, seed⟩ :: frames) r.start e.index

/-- What holds where a rule is not walked, and is kept by walks as long as it holds of the rules
they enter, holds of every rule that is entered. -/
theorem enterRule_yields (Pre : List Frame → RuleEntry → Session → Prop)
    (Post : List Frame → RuleEntry → Session → List Nat → Session → Prop)
    (hplace : q.engine.automaton.RulesInPlace) (finds : q.Finds truth)
    (hf : q.Permits may) (hl : FollowSets.Permitted may truth)
    (kept : ∀ frames e s, Pre frames e s →
      s.cache.Keeps q.engine.automaton q.engine.identity truth)
    (settled : ∀ frames e s ends s', Pre frames e s → Entered q truth frames e s ends s' →
      Post frames e s ends s')
    (walked : ∀ frames e s r cache asked, Pre frames e s → s.memo.lookup e = none →
      frames.find? (fun frame => frame.entry = e) = none →
      q.engine.automaton.rules[e.rule]? = some r → q.atCaret e.index = false →
      cache.Keeps q.engine.automaton q.engine.identity truth →
      (∀ seed callee place s, Pre (⟨e, seed⟩ :: frames) ⟨callee, place⟩ s →
        Yields may (q.enterRule (⟨e, seed⟩ :: frames) callee place) s
          (Post (⟨e, seed⟩ :: frames) ⟨callee, place⟩ s)) →
      Yields may (grow q.window.size e (q.round frames e r) none)
        { s with cache := cache, asked := asked } fun ends s' =>
          Post frames e s ends
            { s' with memo := (e, ends) :: s'.memo, reentered := s'.reentered.erase e })
    {rule : Nat} (h : Pre frames ⟨rule, index⟩ s) :
    Yields may (q.enterRule frames rule index) s (Post frames ⟨rule, index⟩ s) := by
  induction frames, rule, index using enterRule.induct q generalizing s with
  | case1 frames rule index entry =>
    rename_i ih
    rw [enterRule]
    simp only [Yields.bind_iff, Yields.get_iff]
    split
    case h_1 ends known => exact settled _ _ _ _ _ h (.known known)
    case h_2 unknown =>
      split
      case h_1 frame active => exact settled _ _ _ _ _ h (.again unknown active)
      case h_2 inactive =>
        split
        case h_1 missing => exact settled _ _ _ _ _ h (.missing missing)
        case h_2 r hr =>
          simp only [Yields.bind_iff]
          refine (followSets_yields hplace hr finds (kept _ _ _ h) hf.questions).mono ?_
          rintro sets _ ⟨cache, asked, rfl, hcache, hsets⟩
          split
          case isTrue hc =>
            simp only [Yields.bind_iff, Yields.pure_iff]
            refine (record_yields (hl.imp_right fun listable =>
              Candidates.addFollowSets_of_listable (listable r sets hsets))).mono ?_
            rintro _ _ ⟨d, hd, rfl⟩
            exact settled _ _ _ _ _ h (.caret hr hc hcache hsets hd)
          case isFalse hc =>
            have before : q.atCaret index = false := by simpa using hc
            split
            case isTrue =>
              simp only [Yields.bind_iff, Yields.modify_iff, Yields.pure_iff]
              exact walked _ _ _ _ _ _ h unknown inactive hr before hcache
                fun seed callee place _ => ih inactive r hr hc seed callee place
            case isFalse hopen =>
              rw [Bool.not_eq_true, Bool.or_eq_false_iff] at hopen
              exact settled _ _ _ _ _ h (.pruned hr before hcache hsets hopen.1 hopen.2)

/-! ## What every record keeps -/

/-- A property of what is recorded that no record of a request breaks, as long as every rule is
entered below such frames as `Enters` allows. A walk of a rule comes only to states that `Visits`
holds of. -/
structure StableAlong (q : Request) (truth : Rule → FollowSets → Prop) (Visits : Nat → Nat → Prop)
    (Enters : List Frame → Nat → Prop) (Inv : Candidates → Prop) : Prop where
  first : ∀ rule r, q.engine.automaton.rules[rule]? = some r → Visits rule r.start
  next : ∀ rule n, Visits rule n → ∀ t ∈ q.engine.automaton.transitionsAt n, Visits rule t.next
  call : ∀ frames e seed r n rule follow, Enters frames e.rule →
    q.engine.automaton.rules[e.rule]? = some r → Visits e.rule n →
    .call rule follow ∈ q.engine.automaton.transitionsAt n → Enters (⟨e, seed⟩ :: frames) rule
  below : ∀ c d frames e seed r n t label following, Enters frames e.rule →
    q.engine.automaton.rules[e.rule]? = some r → t ∈ q.engine.automaton.transitionsAt n →
    q.engine.automaton.symbolLabel t = some label →
    following = [] ∨ following = forcedAfter q.engine.automaton q.engine.ignored t → Inv c →
    c.addBelow q.engine (⟨e, seed⟩ :: frames) [] label following = .ok d → Inv d
  outermost : ∀ c frames e seed r, Enters frames e.rule →
    q.engine.automaton.rules[e.rule]? = some r → Inv c →
    Inv (c.addOutermost q.engine (⟨e, seed⟩ :: frames) [])
  sets : ∀ c d frames rule r sets, Enters frames rule → q.engine.automaton.rules[rule]? = some r →
    truth r sets → Inv c → c.addFollowSets q.engine frames rule sets = .ok d → Inv d

/-- A property of what is recorded that no record of a request breaks, as long as the open rules are
such as `Opens` allows. -/
structure StableBelow (q : Request) (truth : Rule → FollowSets → Prop)
    (Opens : List Frame → Prop) (Inv : Candidates → Prop) : Prop where
  push : ∀ frames e seed r, Opens frames → q.engine.automaton.rules[e.rule]? = some r →
    Opens (⟨e, seed⟩ :: frames)
  below : ∀ c d frames n t label following, Opens frames →
    t ∈ q.engine.automaton.transitionsAt n → q.engine.automaton.symbolLabel t = some label →
    following = [] ∨ following = forcedAfter q.engine.automaton q.engine.ignored t → Inv c →
    c.addBelow q.engine frames [] label following = .ok d → Inv d
  outermost : ∀ c frames, Opens frames → Inv c → Inv (c.addOutermost q.engine frames [])
  sets : ∀ c d frames rule r sets, Opens frames → q.engine.automaton.rules[rule]? = some r →
    truth r sets → Inv c → c.addFollowSets q.engine frames rule sets = .ok d → Inv d

structure Stable (q : Request) (truth : Rule → FollowSets → Prop) (Inv : Candidates → Prop) :
    Prop where
  below : ∀ c d frames label following, following = [] ∨
    (∃ t, following = forcedAfter q.engine.automaton q.engine.ignored t) → Inv c →
    c.addBelow q.engine frames [] label following = .ok d → Inv d
  outermost : ∀ c frames, Inv c → Inv (c.addOutermost q.engine frames [])
  sets : ∀ c d frames rule r sets, truth r sets → Inv c →
    c.addFollowSets q.engine frames rule sets = .ok d → Inv d

section
variable {Inv : Candidates → Prop} {Opens : List Frame → Prop}

theorem Stable.stableBelow (h : q.Stable truth Inv) :
    q.StableBelow truth (fun _ => True) Inv where
  push _ _ _ _ _ _ := trivial
  below c d frames _ t label following _ _ _ hf :=
    h.below c d frames label following (hf.imp_right fun forced => ⟨t, forced⟩)
  outermost c frames _ := h.outermost c frames
  sets c d frames rule r sets _ _ := h.sets c d frames rule r sets

theorem StableBelow.stableAlong (h : q.StableBelow truth Opens Inv) :
    q.StableAlong truth (fun _ _ => True) (fun frames _ => Opens frames) Inv where
  first _ _ _ := trivial
  next _ _ _ _ _ := trivial
  call frames e seed r _ _ _ opens hr _ _ := h.push frames e seed r opens hr
  below c d frames e seed r n t label following opens hr :=
    h.below c d _ n t label following (h.push frames e seed r opens hr)
  outermost c frames e seed r opens hr := h.outermost c _ (h.push frames e seed r opens hr)
  sets := h.sets

variable {Visits : Nat → Nat → Prop} {Enters : List Frame → Nat → Prop}

theorem Taken.next {t : Transition} {new : List Visit} {s' : Session}
    (h : Taken q frames index called s t new s') : ∀ w ∈ new, w.state = t.next := by
  intro w hw
  cases h with
  | call =>
    obtain ⟨stop, -, rfl⟩ := List.mem_map.mp hw
    rfl
  | @predicate target rule number answer asked =>
    cases answer with
    | false => cases hw
    | true =>
      cases List.mem_singleton.mp hw
      rfl
  | epsilon | wildcard =>
    cases List.mem_singleton.mp hw
    rfl
  | @symbol t target label _ ht =>
    cases List.mem_singleton.mp hw
    cases t with
    | atom | set | notSet =>
      cases ht
      rfl
    | epsilon | wildcard | predicate | call => cases ht
  | caret | refused => cases hw

theorem Taken.stable {e : RuleEntry} {seed : Option (List Nat)} {r : Rule}
    (hq : q.StableAlong truth Visits Enters Inv) (enters : Enters frames e.rule)
    (hr : q.engine.automaton.rules[e.rule]? = some r)
    (hcalled : ∀ rule ends s', called rule ends s' → Inv s'.candidates ∧
      s'.cache.Keeps q.engine.automaton q.engine.identity truth)
    {n : Nat} {t : Transition} (ht : t ∈ q.engine.automaton.transitionsAt n) {new : List Visit}
    {s' : Session} (h : Taken q (⟨e, seed⟩ :: frames) index called s t new s')
    (hs : Inv s.candidates ∧ s.cache.Keeps q.engine.automaton q.engine.identity truth) :
    Inv s'.candidates ∧ s'.cache.Keeps q.engine.automaton q.engine.identity truth := by
  cases h with
  | call hends => exact hcalled _ _ _ hends
  | predicate | wildcard | symbol | refused => exact hs
  | epsilon =>
    by_cases hc : q.atCaret index = true
    · rw [if_pos hc]
      exact ⟨hq.outermost _ frames e seed r enters hr hs.1, hs.2⟩
    · rw [if_neg hc]
      exact hs
  | caret _ hl hf hd =>
    exact ⟨hq.below _ _ frames e seed r n t _ _ enters hr ht hl hf hs.1 hd, hs.2⟩

theorem enterRule_stable (hplace : q.engine.automaton.RulesInPlace) (finds : q.Finds truth)
    (hf : q.Permits may) (hl : FollowSets.Permitted may truth)
    (hq : q.StableAlong truth Visits Enters Inv) {rule : Nat} (enters : Enters frames rule)
    (hs : Inv s.candidates ∧ s.cache.Keeps q.engine.automaton q.engine.identity truth) :
    Yields may (q.enterRule frames rule index) s fun _ s' =>
      Inv s'.candidates ∧ s'.cache.Keeps q.engine.automaton q.engine.identity truth := by
  let Good (s : Session) : Prop :=
    Inv s.candidates ∧ s.cache.Keeps q.engine.automaton q.engine.identity truth
  refine enterRule_yields (fun frames e s => Enters frames e.rule ∧ Good s) (fun _ _ _ _ => Good)
    hplace finds hf hl (fun _ _ _ h => h.2.2) ?_ ?_ ⟨enters, hs⟩
  · intro frames e s ends s' hs he
    cases he with
    | known | again | missing => exact hs.2
    | caret hr _ hcache hsets hd =>
      exact ⟨hq.sets _ _ frames _ _ _ hs.1 hr hsets hs.2.1 hd, hcache⟩
    | pruned _ _ hcache => exact ⟨hs.2.1, hcache⟩
  · intro frames e s r cache asked hs _ _ hr _ hcache rec
    let Pending (pending : List Visit) : Prop := ∀ w ∈ pending, Visits e.rule w.state
    have round : ∀ seed s, Good s → Yields may (q.round frames e r seed) s fun _ => Good := by
      intro seed s good
      have start : Pending [⟨r.start, e.index⟩] :=
        List.forall_mem_singleton.mpr (hq.first e.rule r hr)
      refine (walkFrom_yields (fun _ _ pending s => Pending pending ∧ Good s)
        (fun _ _ _ _ _ _ h => ⟨(List.forall_mem_cons.mp h.1).2, h.2⟩)
        (fun _ _ _ _ _ _ _ h => ⟨(List.forall_mem_cons.mp h.1).2, h.2⟩)
        (fun _ _ v rest s _ _ h => ?_) ⟨start, good⟩).mono fun _ _ ⟨_, h⟩ => h.2
      obtain ⟨pending, good⟩ := h
      obtain ⟨here, others⟩ := List.forall_mem_cons.mp pending
      have all : Pending rest ∧ Good { s with statesProcessed := s.statesProcessed + 1 } :=
        ⟨others, good⟩
      refine takeAll_yields (fun _ pending s => Pending pending ∧ Good s)
        (fun t ht _ pending s ⟨others, good⟩ => ?_) all
      refine (take_yields (fun _ _ => Good) hf.questions (hf.labels.imp_right fun l => l v.state t ht)
        pending ?_).mono ?_
      · rintro callee follow rfl
        have enters := hq.call frames e seed r v.state callee follow hs.1 hr here ht
        exact rec seed callee v.index s ⟨enters, good⟩
      · rintro _ s' ⟨new, rfl, taken⟩
        have further : Pending new := fun w hw => by
          rw [taken.next w hw]
          exact hq.next e.rule v.state here t ht
        exact ⟨List.forall_mem_append.mpr ⟨further, others⟩,
          taken.stable hq hs.1 hr (fun _ _ _ => id) ht good⟩
    refine (grow_yields (fun _ => Good) (fun _ _ => Good) (fun seed s hs => ?_) ?_).mono
      fun _ _ ⟨_, _, h, _⟩ => h
    · exact (round seed s hs).mono fun _ _ h => ⟨h, h⟩
    · exact ⟨hs.2.1, hcache⟩

theorem enterRule_keeps (hplace : q.engine.automaton.RulesInPlace) (finds : q.Finds truth)
    (hf : q.Permits may) (hl : FollowSets.Permitted may truth)
    (hq : q.StableBelow truth Opens Inv) (opens : Opens frames) {rule : Nat}
    (hs : Inv s.candidates ∧ s.cache.Keeps q.engine.automaton q.engine.identity truth) :
    Yields may (q.enterRule frames rule index) s fun _ s' =>
      Inv s'.candidates ∧ s'.cache.Keeps q.engine.automaton q.engine.identity truth :=
  enterRule_stable hplace finds hf hl hq.stableAlong opens hs

theorem enterRule_preserves (hplace : q.engine.automaton.RulesInPlace) (finds : q.Finds truth)
    (hq : q.Stable truth Inv) {rule : Nat}
    (hs : Inv s.candidates ∧ s.cache.Keeps q.engine.automaton q.engine.identity truth) :
    Yields (fun _ => True) (q.enterRule frames rule index) s fun _ s' =>
      Inv s'.candidates ∧ s'.cache.Keeps q.engine.automaton q.engine.identity truth :=
  enterRule_keeps hplace finds q.permits_all (.inl trivial) hq.stableBelow trivial hs

end

end Request

theorem Automaton.rules_of_rule? {a : Automaton} {index : Int} {r : Rule}
    (h : a.rule? index = some r) : a.rules[index.toNat]? = some r := by
  unfold Automaton.rule? at h
  split at h
  · cases h
  · exact h

/-- A request that is answered has entered its rule at the first token of its window. -/
theorem Engine.search_of_collect {engine : Engine} {cache : Cache} {stream : TokenStream}
    {caret : Int} {context : RuleContext} {evaluator : Option Evaluator} {candidates : Candidates}
    (h : (engine.collect cache stream caret context evaluator).result = .ok candidates) :
    ∃ r window ends s, engine.automaton.rule? context.rule = some r ∧
      stream.window context.start caret = .ok window ∧
      Request.enterRule ⟨engine, window.toArray, evaluator⟩ [] context.rule.toNat 0
        { cache := cache } = .ok ends s ∧
      candidates = { s.candidates with statesProcessed := s.statesProcessed } := by
  unfold Engine.collect at h
  split at h
  case h_1 => cases h
  case h_2 r hr =>
    split at h
    case h_1 => cases h
    case h_2 window hw =>
      simp only at h
      split at h
      case h_1 ends s hs =>
        cases h
        exact ⟨r, window, ends, s, hr, hw, hs, rfl⟩
      case h_2 => cases h

theorem Engine.enterRule_of_collect {engine : Engine} {cache : Cache} {stream : TokenStream}
    {caret : Int} {context : RuleContext} {evaluator : Option Evaluator} {candidates : Candidates}
    (h : (engine.collect cache stream caret context evaluator).result = .ok candidates) :
    ∃ r window ends s, engine.automaton.rule? context.rule = some r ∧
      stream.window context.start caret = .ok window ∧
      Request.enterRule ⟨engine, window.toArray, evaluator⟩ [] context.rule.toNat 0
        { cache := cache } = .ok ends s ∧ candidates.tokens = s.candidates.tokens := by
  obtain ⟨r, window, ends, s, hr, hw, hs, rfl⟩ := search_of_collect h
  exact ⟨r, window, ends, s, hr, hw, hs, rfl⟩

theorem Engine.collect_of_enterRule {engine : Engine} {cache : Cache} {stream : TokenStream}
    {caret : Int} {context : RuleContext} {evaluator : Option Evaluator} {r : Rule}
    {window : List Token} {ends : List Nat} {s : Session}
    (hr : engine.automaton.rule? context.rule = some r)
    (hw : stream.window context.start caret = .ok window)
    (hs : Request.enterRule ⟨engine, window.toArray, evaluator⟩ [] context.rule.toNat 0
      { cache := cache } = .ok ends s) :
    engine.collect cache stream caret context evaluator =
      ⟨.ok { s.candidates with statesProcessed := s.statesProcessed }, s.cache,
        s.asked.reverse, stream.afterWindow context.start⟩ := by
  simp only [Engine.collect, hr, hw, EStateM.run, hs]

end GrammarCompletion
