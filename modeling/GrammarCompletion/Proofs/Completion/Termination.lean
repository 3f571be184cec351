import GrammarCompletion.Proofs.Completion.Completeness
import GrammarCompletion.Proofs.IntervalSet.Canonical

/-!
# Searches end inside the window

A walk passes over visits outside of the window, growing gives up on ends that do not fit into it,
and the symbols of a set are listed by a count that cannot wrap around. These guards make the search
total, and they are never needed: `enterWithin` is the search without them, and does the same.

Where it would not, it is cut: when a token outside of the window is read, when a set is not listed
by counting up from the bounds of its ranges, when a walk makes more visits than there are, when
more rounds are made than a seed can grow, or when calls nest deeper than there are rule entries.
-/

namespace GrammarCompletion

open Automaton

/-! ## Sets that are recorded at the caret -/

def FollowSets.Small (sets : FollowSets) : Prop :=
  ∀ set ∈ sets.sets, ∀ x ∈ set.symbols, x < Int64.maxValue

def Cache.Small (cache : Cache) : Prop := ∀ key sets, cache.find? key = some sets → sets.Small

theorem Cache.small_empty : Cache.Small {} := by
  intro key sets h
  cases h

theorem Cache.Small.store {cache : Cache} (h : cache.Small) (key : CacheKey) {sets : FollowSets}
    (hs : sets.Small) : (cache.store key sets).Small := by
  intro key' sets' found
  simp only [Cache.find?, Cache.store, List.lookup_cons] at found
  split at found
  · cases found
    exact hs
  · exact h key' sets' found

theorem Automaton.SmallLabels.followSets {a : Automaton} (small : a.SmallLabels)
    {ignored : List Symbol} {evaluator : Option Evaluator} {asked : List PredicateCall} {r : Rule}
    {sets : FollowSets} (h : (FollowSets.ofRule a ignored evaluator asked r).result = .ok sets) :
    sets.Small := by
  apply (FollowSets.stem_of_ofRule h).symbols (P := fun set => ∀ x ∈ set, x < Int64.maxValue)
  · intro x hx
    rw [IntervalSet.mem_singleton.mp hx]
    decide
  · exact fun n t ht label hl x hx => small.lt_of_offers ⟨t, ht, label, hl, hx⟩

/-! ## The search without guards -/

namespace Request

section
variable (q : Request) (cut : Search (List Nat))

/-- The sets recorded at the caret for the transitions of a state. -/
def listable (index : Nat) (transitions : List Transition) : Bool :=
  !q.atCaret index || transitions.all fun t =>
    (q.engine.automaton.symbolLabel t).all IntervalSet.countsUp

/-- Make all pending visits, at most `fuel` many. Only states that are not there and visits made
before are passed over. -/
def walkWithin (call : Nat → Nat → Search (List Nat)) (frames : List Frame) :
    (fuel : Nat) → (expanded : Std.TreeSet Visit Visit.compare) → (ends : List Nat) →
    (pending : List Visit) → Search (List Nat)
  | fuel, expanded, ends, pending =>
    match pending.dropWhile fun v =>
      expanded.contains v || !decide (v.state < q.engine.automaton.states.size) with
    | [] => return ends
    | v :: rest =>
      match fuel with
      | 0 => cut
      | fuel + 1 => do
        modify fun s => { s with statesProcessed := s.statesProcessed + 1 }
        match q.engine.automaton.states[v.state]? with
        | none => cut
        | some state =>
          if state.kind = .ruleStop then
            walkWithin call frames fuel (expanded.insert v) (insertAscending v.index ends) rest
          else if v.index < q.window.size ∧ q.listable v.index state.transitions then
            let pending ← q.takeAll call frames v.index state.transitions rest
            walkWithin call frames fuel (expanded.insert v) ends pending
          else cut

def growWithin (entry : RuleEntry) (round : Option (List Nat) → Search (List Nat)) :
    (fuel : Nat) → (seed : Option (List Nat)) → Search (List Nat)
  | 0, _ => cut
  | fuel + 1, seed => do
    let memo := (← get).memo
    let found ← round seed
    if (← get).reentered.contains entry then
      let ends := unionEnds found (seed.getD [])
      if seed.any fun old => ends.length = old.length then return ends
      else
        modify fun s => { s with memo := memo }
        growWithin entry round fuel (some ends)
    else return found

def enterWithin : (depth : Nat) → (frames : List Frame) → (rule index : Nat) → Search (List Nat)
  | depth, frames, rule, index => do
    let entry : RuleEntry := ⟨rule, index⟩
    match (← get).memo.lookup entry with
    | some ends => return ends
    | none =>
      match frames.find? (fun frame => frame.entry = entry) with
      | some frame =>
        modify fun s => { s with reentered := s.reentered.insert entry }
        return frame.seed.getD []
      | none =>
        match q.engine.automaton.rules[rule]? with
        | none => return []
        | some r =>
          let sets ← Session.followSets q r
          if q.atCaret index then
            if sets.sets.all fun set => set.symbols.countsUp then
              record (Candidates.addFollowSets q.engine frames rule sets)
              return if sets.canEnd then [index] else []
            else cut
          else
            match q.window[index]? with
            | none => cut
            | some token =>
              if sets.canEnd || sets.combined.contains token.symbol then
                match depth with
                | 0 => cut
                | depth + 1 =>
                  let ends ← growWithin cut entry
                    (fun seed =>
                      q.walkWithin cut
                        (fun callee place => enterWithin depth (⟨entry, seed⟩ :: frames) callee place)
                        (⟨entry, seed⟩ :: frames)
                        (q.engine.automaton.states.size * q.window.size) ∅ [] [⟨r.start, index⟩])
                    (q.window.size + 2) none
                  modify fun s =>
                    { s with memo := (entry, ends) :: s.memo, reentered := s.reentered.erase entry }
                  return ends
              else return []

end

end Request

/-! ## What is left to do -/

theorem unseen_le_length {α : Type} (all : List α) (seen : α → Bool) :
    unseen all (fun _ => 1) seen ≤ all.length := by
  induction all with
  | nil => exact Nat.le_refl _
  | cons x all ih =>
    simp only [unseen, List.foldr_cons, List.length_cons] at ih ⊢
    split <;> omega

theorem unseen_grid_le {α : Type} (rows columns : Nat) (make : Nat → Nat → α) (seen : α → Bool) :
    unseen (grid rows columns make) (fun _ => 1) seen ≤ rows * columns := by
  have length : (grid rows columns make).length = rows * columns := by
    simp [grid, List.length_flatMap]
  exact Nat.le_trans (unseen_le_length _ _) (Nat.le_of_eq length)

namespace Request

variable (q : Request)

def visitsLeft (expanded : Std.TreeSet Visit Visit.compare) : Nat :=
  unseen (grid q.engine.automaton.states.size q.window.size Visit.mk) (fun _ => 1) expanded.contains

def entriesLeft (frames : List Frame) : Nat :=
  unseen (grid q.engine.automaton.rules.size q.window.size RuleEntry.mk) (fun _ => 1)
    fun e => frames.any fun frame => frame.entry = e

variable {q}

theorem visitsLeft_le (expanded : Std.TreeSet Visit Visit.compare) :
    q.visitsLeft expanded ≤ q.engine.automaton.states.size * q.window.size :=
  unseen_grid_le ..

theorem entriesLeft_le (frames : List Frame) :
    q.entriesLeft frames ≤ q.engine.automaton.rules.size * q.window.size :=
  unseen_grid_le ..

theorem visitsLeft_insert {expanded : Std.TreeSet Visit Visit.compare} {v : Visit}
    (fresh : q.isStale expanded v = false) :
    q.visitsLeft (expanded.insert v) < q.visitsLeft expanded := by
  obtain ⟨isNew, inside⟩ := isStale_eq_false.mp fresh
  refine unseen_lt (mem_grid Visit.mk inside.1 inside.2) Nat.one_pos ?_
    Std.TreeSet.contains_insert_self ?_
  · simpa [← Std.TreeSet.contains_iff_mem] using isNew
  · intro w known
    simp [Std.TreeSet.contains_insert, known]

theorem entriesLeft_push {frames : List Frame} {e : RuleEntry}
    (inactive : frames.find? (fun frame => frame.entry = e) = none)
    (known : e.rule < q.engine.automaton.rules.size) (inside : e.index < q.window.size)
    (seed : Option (List Nat)) : q.entriesLeft (⟨e, seed⟩ :: frames) < q.entriesLeft frames := by
  refine unseen_lt (mem_grid RuleEntry.mk known inside) Nat.one_pos ?_ ?_ ?_
  · simpa using inactive
  · simp
  · intro e' active
    simp only [List.any_cons, active, Bool.or_true]

end Request

/-! ## Searches that do the same -/

/-- Two searches do the same from a session on, and come to an end with the property or are
interrupted. -/
def Agrees {α : Type} (x y : Search α) (s : Session) (post : α → Session → Prop) : Prop :=
  x s = y s ∧ Yields (fun _ => True) y s post

namespace Agrees

variable {α β : Type} {s : Session}

theorem refl {x : Search α} {post : α → Session → Prop} (h : Yields (fun _ => True) x s post) :
    Agrees x x s post := ⟨rfl, h⟩

theorem pure {v : α} {post : α → Session → Prop} (h : post v s) :
    Agrees (Pure.pure v) (Pure.pure v) s post := ⟨rfl, h⟩

theorem bind {x y : Search α} {f g : α → Search β} {mid : α → Session → Prop}
    {post : β → Session → Prop} (h : Agrees x y s mid)
    (next : ∀ v s', mid v s' → Agrees (f v) (g v) s' post) :
    Agrees (x >>= f) (y >>= g) s post := by
  obtain ⟨same, yields⟩ := h
  simp only [Agrees, Yields, Bind.bind, EStateM.bind, same] at yields ⊢
  cases hy : y s with
  | error => simp
  | ok v s' =>
    simp only [hy] at yields
    exact next v s' yields

theorem get_bind {f g : Session → Search α} {post : α → Session → Prop}
    (next : Agrees (f s) (g s) s post) : Agrees (get >>= f) (get >>= g) s post := next

theorem modify_bind {change : Session → Session} {f g : PUnit → Search α}
    {post : α → Session → Prop} (next : Agrees (f ⟨⟩) (g ⟨⟩) (change s) post) :
    Agrees (modify change >>= f) (modify change >>= g) s post := next

end Agrees

namespace Request

variable {q : Request} {s : Session} {frames : List Frame} {cut : Search (List Nat)}
  {call call' : Nat → Nat → Search (List Nat)}

/-- All ends that a session remembers lie inside the window, and all sets it has stored count up. -/
structure Safe (q : Request) (s : Session) : Prop where
  cache : s.cache.Small
  memo : ∀ e ends, s.memo.lookup e = some ends → Ends q.window.size ends

def EnterSafe (q : Request) (ends : List Nat) (s : Session) : Prop :=
  q.Safe s ∧ Ends q.window.size ends

theorem Taken.safe {index : Nat} {t : Transition} {new : List Visit} {s' : Session}
    (inside : index < q.window.size) (hs : q.Safe s)
    (h : Taken q frames index (fun _ => q.EnterSafe) s t new s') :
    q.Safe s' ∧ ∀ w ∈ new, w.index < q.window.size := by
  have next : q.atCaret index = false → index + 1 < q.window.size := by
    intro hc
    simp only [atCaret, decide_eq_false_iff_not] at hc
    omega
  cases h with
  | call hends =>
    refine ⟨hends.1, fun w hw => ?_⟩
    obtain ⟨stop, hstop, rfl⟩ := List.mem_map.mp hw
    exact hends.2.bounded stop (List.mem_reverse.mp hstop)
  | @predicate _ _ _ answer =>
    refine ⟨⟨hs.cache, hs.memo⟩, ?_⟩
    cases answer <;> simp [inside]
  | epsilon => exact ⟨⟨hs.cache, hs.memo⟩, by simpa using inside⟩
  | wildcard hc => exact ⟨hs, by simpa using next hc⟩
  | symbol hc => exact ⟨hs, by simpa using next hc⟩
  | caret => exact ⟨⟨hs.cache, hs.memo⟩, by simp⟩
  | refused => exact ⟨hs, by simp⟩

theorem take_agrees {index : Nat} (inside : index < q.window.size) (hs : q.Safe s)
    (hcall : ∀ rule, Agrees (call rule index) (call' rule index) s q.EnterSafe) (t : Transition)
    {pending : List Visit} (hp : ∀ w ∈ pending, w.index < q.window.size) :
    Agrees (q.take call frames index t pending) (q.take call' frames index t pending) s
      fun pending s' => q.Safe s' ∧ ∀ w ∈ pending, w.index < q.window.size := by
  constructor
  · cases t with
    | call rule follow =>
      have both : Agrees (q.take call frames index (.call rule follow) pending)
          (q.take call' frames index (.call rule follow) pending) s fun _ _ => True :=
        (hcall rule).bind fun _ _ _ => .refl trivial
      exact both.1
    | _ => rfl
  · refine (take_yields (fun _ => q.EnterSafe) (.inl fun _ => trivial) (.inl trivial) pending
      fun rule _ _ => (hcall rule).2).mono ?_
    rintro _ s' ⟨new, rfl, taken⟩
    obtain ⟨hs', hnew⟩ := taken.safe inside hs
    exact ⟨hs', fun w hw => (List.mem_append.mp hw).elim (hnew w) (hp w)⟩

theorem takeAll_agrees {index : Nat} (inside : index < q.window.size) (hs : q.Safe s)
    (hcall : ∀ rule s, q.Safe s → Agrees (call rule index) (call' rule index) s q.EnterSafe)
    (transitions : List Transition) {pending : List Visit}
    (hp : ∀ w ∈ pending, w.index < q.window.size) :
    Agrees (q.takeAll call frames index transitions pending)
      (q.takeAll call' frames index transitions pending) s
      fun pending s' => q.Safe s' ∧ ∀ w ∈ pending, w.index < q.window.size := by
  induction transitions generalizing s pending with
  | nil => exact .refl ⟨hs, hp⟩
  | cons t transitions ih =>
    exact (take_agrees inside hs (fun rule => hcall rule s hs) t hp).bind fun _ _ h => ih h.1 h.2

/-! ## Walks -/

/-- Inside the window only visits made before and states that are not there are passed over. -/
theorem dropWhile_isStale (expanded : Std.TreeSet Visit Visit.compare) {pending : List Visit}
    (hp : ∀ w ∈ pending, w.index < q.window.size) :
    pending.dropWhile (q.isStale expanded) = pending.dropWhile fun v =>
      expanded.contains v || !decide (v.state < q.engine.automaton.states.size) := by
  induction pending with
  | nil => rfl
  | cons v pending ih =>
    rw [List.forall_mem_cons] at hp
    simp only [List.dropWhile_cons, isStale, hp.1, decide_true, Bool.and_true, ih hp.2]

theorem listable_of_small (small : q.engine.automaton.SmallLabels) {n index : Nat} {state : State}
    (found : q.engine.automaton.states[n]? = some state) :
    q.listable index state.transitions = true := by
  simp only [listable, Bool.or_eq_true, List.all_eq_true, Option.all_eq_true]
  refine .inr fun t ht label hl => IntervalSet.countsUp_of_lt fun x hx => ?_
  rw [← transitionsAt_of_state found] at ht
  exact small.lt_of_offers ⟨t, ht, label, hl, hx⟩

theorem walkFrom_nil {expanded : Std.TreeSet Visit Visit.compare} {ends : List Nat}
    {pending : List Visit} (next : pending.dropWhile (q.isStale expanded) = []) :
    q.walkFrom call frames expanded ends pending = pure ends := by
  rw [walkFrom]
  split
  case h_1 => rfl
  case h_2 other => exact absurd (next.symm.trans other) (by simp)

theorem walkFrom_cons {expanded : Std.TreeSet Visit Visit.compare} {ends : List Nat}
    {pending rest : List Visit} {v : Visit} {state : State}
    (next : pending.dropWhile (q.isStale expanded) = v :: rest)
    (found : q.engine.automaton.states[v.state]? = some state) :
    q.walkFrom call frames expanded ends pending = (do
      modify fun s => { s with statesProcessed := s.statesProcessed + 1 }
      if state.kind = .ruleStop then
        q.walkFrom call frames (expanded.insert v) (insertAscending v.index ends) rest
      else
        let pending ← q.takeAll call frames v.index state.transitions rest
        q.walkFrom call frames (expanded.insert v) ends pending) := by
  rw [walkFrom]
  split
  case h_1 other => exact absurd (next.symm.trans other) (by simp)
  case h_2 other =>
    cases next.symm.trans other
    simp only [found]

theorem walkWithin_agrees (small : q.engine.automaton.SmallLabels)
    (hcall : ∀ rule place s, place < q.window.size → q.Safe s →
      Agrees (call rule place) (call' rule place) s q.EnterSafe)
    {expanded : Std.TreeSet Visit Visit.compare} {ends : List Nat} {pending : List Visit}
    {fuel : Nat} (enough : q.visitsLeft expanded ≤ fuel) (hs : q.Safe s) (hends : Ends q.window.size ends)
    (hp : ∀ w ∈ pending, w.index < q.window.size) :
    Agrees (q.walkWithin cut call frames fuel expanded ends pending)
      (q.walkFrom call' frames expanded ends pending) s q.EnterSafe := by
  induction expanded, ends, pending using walkFrom.induct q generalizing s fuel with
  | case1 expanded ends pending next =>
    have next' := (dropWhile_isStale expanded hp).symm.trans next
    rw [walkFrom_nil next, walkWithin]
    simp only [next']
    exact .refl ⟨hs, hends⟩
  | case2 expanded ends pending v rest next _ ihStop ihTake =>
    have next' := (dropWhile_isStale expanded hp).symm.trans next
    obtain ⟨-, known, inside⟩ := isStale_eq_false.mp (isStale_head next)
    have left := visitsLeft_insert (isStale_head next)
    have hrest : ∀ w ∈ rest, w.index < q.window.size := by
      intro w hw
      refine hp w ((List.dropWhile_sublist (q.isStale expanded)).subset ?_)
      rw [next]
      exact List.mem_cons_of_mem _ hw
    have found : q.engine.automaton.states[v.state]? = some q.engine.automaton.states[v.state] :=
      Array.getElem?_eq_getElem known
    have counted : q.Safe { s with statesProcessed := s.statesProcessed + 1 } := ⟨hs.cache, hs.memo⟩
    -- There is a visit left to make, so there is fuel.
    obtain ⟨fuel, rfl⟩ : ∃ k, fuel = k + 1 := ⟨fuel - 1, by omega⟩
    rw [walkFrom_cons next found, walkWithin]
    simp only [next', found]
    apply Agrees.modify_bind
    by_cases kind : q.engine.automaton.states[v.state].kind = .ruleStop
    · rw [if_pos kind, if_pos kind]
      exact ihStop (by omega) counted (hends.insert inside) hrest
    · rw [if_neg kind, if_neg kind, if_pos ⟨inside, listable_of_small small found⟩]
      exact (takeAll_agrees inside counted (fun rule s => hcall rule v.index s inside) _ hrest).bind
        fun pending s' h => ihTake pending (by omega) h.1 hends h.2

/-! ## Seeds -/

/-- As long as all ends lie inside the window, growing goes on until the seed has all of them. -/
theorem outgrows_eq {bound : Nat} {seed : Option (List Nat)} {found : List Nat}
    (hseed : Ends bound (seed.getD [])) (hfound : Ends bound found) :
    outgrows bound seed (unionEnds found (seed.getD [])) =
      !seed.any fun old => (unionEnds found (seed.getD [])).length = old.length := by
  have fits := (hfound.union hseed).length_le
  cases seed with
  | none => simpa [outgrows] using fits
  | some old =>
    have subset : old ⊆ unionEnds found old := fun stop hstop => mem_unionEnds.mpr (.inr hstop)
    have grows := (List.subperm_of_subset hseed.nodup subset).length_le
    simp only [Option.getD_some] at fits grows
    rw [Bool.eq_iff_iff]
    simp only [outgrows, Option.getD_some, Option.any_some, Bool.and_eq_true, decide_eq_true_eq,
      Bool.not_eq_true', decide_eq_false_iff_not]
    omega

theorem roundsLeft_lt {bound : Nat} {seed : Option (List Nat)} {ends : List Nat}
    (h : outgrows bound seed ends = true) : roundsLeft bound (some ends) < roundsLeft bound seed := by
  cases seed with
  | none =>
    simp only [roundsLeft]
    omega
  | some old =>
    simp only [outgrows, Bool.and_eq_true, decide_eq_true_eq] at h
    simp only [roundsLeft]
    omega

theorem growWithin_agrees {entry : RuleEntry} {round round' : Option (List Nat) → Search (List Nat)}
    (hround : ∀ seed s, Ends q.window.size (seed.getD []) → q.Safe s →
      Agrees (round seed) (round' seed) s q.EnterSafe)
    {seed : Option (List Nat)} {fuel : Nat} (enough : roundsLeft q.window.size seed ≤ fuel)
    (hs : q.Safe s) (hseed : Ends q.window.size (seed.getD [])) :
    Agrees (growWithin cut entry round fuel seed) (grow q.window.size entry round' seed) s
      q.EnterSafe := by
  induction fuel generalizing seed s with
  | zero =>
    have fits := hseed.length_le
    cases seed with
    | none => simp [roundsLeft] at enough
    | some old =>
      simp only [roundsLeft, Option.getD_some] at enough fits
      omega
  | succ fuel ih =>
    unfold growWithin
    rw [grow]
    apply Agrees.get_bind
    refine (hround seed s hseed hs).bind fun found s' h => ?_
    obtain ⟨hs', hfound⟩ := h
    apply Agrees.get_bind
    by_cases again : s'.reentered.contains entry = true
    · have both := hfound.union hseed
      have more := outgrows_eq hseed hfound
      simp only [again, if_true]
      by_cases done : (seed.any fun old =>
          (unionEnds found (seed.getD [])).length = old.length) = true
      · rw [if_pos done, dif_neg (by simp [more, done])]
        exact .refl ⟨hs', both⟩
      · rw [Bool.not_eq_true] at done
        rw [done, Bool.not_false] at more
        rw [if_neg (by simp [done]), dif_pos more]
        apply Agrees.modify_bind
        have left := roundsLeft_lt more
        exact ih (by omega) ⟨hs'.cache, hs.memo⟩ both
    · simp only [again]
      exact .refl ⟨hs', hfound⟩

/-! ## Rules that are entered -/

theorem followSets_safe (small : q.engine.automaton.SmallLabels) (r : Rule) (hs : q.Safe s) :
    Yields (fun _ => True) (Session.followSets q r) s fun sets s' => q.Safe s' ∧ sets.Small := by
  simp only [Session.followSets, Yields.bind_iff, Yields.get_iff]
  split
  case h_1 sets found => exact ⟨hs, hs.cache _ _ found⟩
  case h_2 =>
    split
    case h_1 => trivial
    case h_2 sets found =>
      have counted : (s.cache.countStates (FollowSets.ofRule q.engine.automaton q.engine.ignored
          q.evaluator s.asked r).visited).Small := hs.cache
      exact ⟨⟨counted.store _ (small.followSets found), hs.memo⟩, small.followSets found⟩

theorem Safe.finish (hs : q.Safe s) {ends : List Nat} (hends : Ends q.window.size ends)
    (e : RuleEntry) : q.Safe (Request.finish s e ends) := by
  refine ⟨hs.cache, fun e' ends' hm => ?_⟩
  rw [lookup_finish] at hm
  split at hm
  · cases hm
    exact hends
  · exact hs.memo e' ends' hm

/-- Entering a rule, with the walk as a round of its own. -/
theorem enterRule_eq (frames : List Frame) (rule index : Nat) :
    q.enterRule frames rule index = (do
      match (← get).memo.lookup ⟨rule, index⟩ with
      | some ends => return ends
      | none =>
        match frames.find? (fun frame => frame.entry = ⟨rule, index⟩) with
        | some frame =>
          modify fun s => { s with reentered := s.reentered.insert ⟨rule, index⟩ }
          return frame.seed.getD []
        | none =>
          match q.engine.automaton.rules[rule]? with
          | none => return []
          | some r =>
            let sets ← Session.followSets q r
            if q.atCaret index then
              record (Candidates.addFollowSets q.engine frames rule sets)
              return if sets.canEnd then [index] else []
            else if sets.canEnd || sets.combined.contains (q.symbolAt index) then
              let ends ← grow q.window.size ⟨rule, index⟩ (q.round frames ⟨rule, index⟩ r) none
              modify fun s => finish s ⟨rule, index⟩ ends
              return ends
            else return []) := by
  rw [enterRule]
  congr 1
  funext s
  cases s.memo.lookup (⟨rule, index⟩ : RuleEntry) with
  | some ends => rfl
  | none =>
    dsimp only
    split
    case h_1 active => simp only [active]
    case h_2 inactive =>
      simp only [inactive]
      split
      case h_1 missing => simp only [missing]
      case h_2 known =>
        simp only [known]
        rfl

theorem enterWithin_agrees (small : q.engine.automaton.SmallLabels) {depth : Nat}
    {frames : List Frame} {rule index : Nat} (enough : q.entriesLeft frames ≤ depth)
    (inside : index < q.window.size)
    (seeds : ∀ frame ∈ frames, Ends q.window.size (frame.seed.getD [])) (hs : q.Safe s) :
    Agrees (q.enterWithin cut depth frames rule index) (q.enterRule frames rule index) s
      q.EnterSafe := by
  induction frames, rule, index using enterRule.induct q generalizing depth s with
  | case1 frames rule index entry =>
    rename_i ih
    rw [enterWithin, enterRule_eq]
    apply Agrees.get_bind
    cases known : s.memo.lookup ⟨rule, index⟩ with
    | some ends => exact .pure ⟨hs, hs.memo _ _ known⟩
    | none =>
      cases active : frames.find? (fun frame => frame.entry = ⟨rule, index⟩) with
      | some frame =>
        simp only
        apply Agrees.modify_bind
        exact .pure ⟨⟨hs.cache, hs.memo⟩, seeds frame (List.mem_of_find?_eq_some active)⟩
      | none =>
        cases hr : q.engine.automaton.rules[rule]? with
        | none => exact .pure ⟨hs, .nil⟩
        | some r =>
          refine (Agrees.refl (followSets_safe small r hs)).bind ?_
          rintro sets s' ⟨hs', hsets⟩
          by_cases hc : q.atCaret index = true
          · have counts : (sets.sets.all fun set => set.symbols.countsUp) = true := by
              rw [List.all_eq_true]
              exact fun set hset => IntervalSet.countsUp_of_lt (hsets set hset)
            simp only [if_pos hc, if_pos counts]
            refine (Agrees.refl (record_yields (.inl trivial))).bind ?_
            rintro _ _ ⟨d, -, rfl⟩
            refine .pure ⟨⟨hs'.cache, hs'.memo⟩, ?_⟩
            split
            · exact .insert .nil inside
            · exact .nil
          · have token : q.window[index]? = some q.window[index] := Array.getElem?_eq_getElem inside
            have symbol : q.symbolAt index = q.window[index].symbol := by simp [symbolAt, token]
            simp only [if_neg hc, token, symbol]
            by_cases enters : (sets.canEnd || sets.combined.contains q.window[index].symbol) = true
            · have known : rule < q.engine.automaton.rules.size :=
                (Array.getElem?_eq_some_iff.mp hr).choose
              have left := entriesLeft_push active known inside
              have first := left none
              simp only [if_pos enters]
              obtain ⟨depth, rfl⟩ : ∃ k, depth = k + 1 := ⟨depth - 1, by omega⟩
              simp only
              refine (growWithin_agrees (fun seed s hseed hs => ?_) ?_ hs' .nil).bind ?_
              · refine walkWithin_agrees small (fun callee place s inside hs => ?_) (visitsLeft_le _) hs
                  .nil (by simpa using inside)
                have deeper : q.entriesLeft (⟨entry, seed⟩ :: frames) < q.entriesLeft frames := left seed
                exact ih active r hr hc seed callee place (by omega) inside
                  (List.forall_mem_cons.mpr ⟨hseed, seeds⟩) hs
              · exact Nat.le_refl _
              · rintro ends s'' ⟨hs'', hends⟩
                apply Agrees.modify_bind
                exact .pure ⟨hs''.finish hends _, hends⟩
            · simp only [if_neg enters]
              exact .pure ⟨hs', .nil⟩

/-- A search in a window that is not empty ends, reads tokens of the window only and gives back
positions of the window, whatever the automaton and the evaluator do, if no label holds the greatest
number. Its walks make each visit once, at most as many rounds as there are positions grow a seed,
and no rule entry is walked inside itself. -/
theorem enterWithin_eq_enterRule (nonempty : 0 < q.window.size) (small : q.engine.automaton.SmallLabels)
    {cache : Cache} (stored : cache.Small) (rule : Nat) (cut : Search (List Nat)) :
    q.enterWithin cut (q.engine.automaton.rules.size * q.window.size) [] rule 0
        { cache := cache } = q.enterRule [] rule 0 { cache := cache } ∧
      ∀ ends s, q.enterRule [] rule 0 { cache := cache } = .ok ends s →
        (∀ stop ∈ ends, stop < q.window.size) ∧ s.cache.Small := by
  have safe : q.Safe { cache := cache } := ⟨stored, by simp⟩
  have agrees : Agrees (q.enterWithin cut (q.engine.automaton.rules.size * q.window.size) [] rule 0)
      (q.enterRule [] rule 0) { cache := cache } q.EnterSafe :=
    enterWithin_agrees small (entriesLeft_le []) nonempty (by simp) safe
  obtain ⟨same, yields⟩ := agrees
  refine ⟨same, fun ends s hs => ?_⟩
  obtain ⟨hs', hends⟩ := yields.of_ok hs
  exact ⟨hends.bounded, hs'.cache⟩

/-- A rule that calls itself before any token, with a cycle of silent transitions and a predicate
that is asked again on every turn. -/
def circling : Automaton :=
  (((((Automaton.empty.addRule "r").addState 0 .basic).connect 0 (.epsilon 2)).connect 2
    (.predicate 0 0 1)).connect 0 (.call 0 2)).connect 2 (.atom 1 5)

/-- The predicate holds at every other question. -/
def alternating : Evaluator := fun asked _ => .ok (asked.length % 2 == 0)

def circlingRequest : Request where
  engine := ⟨circling, .automaton 0, [], []⟩
  window := #[{ symbol := 5 }, { symbol := 5 }, { symbol := 5 }]
  evaluator := some alternating

theorem enterWithin_eq_enterRule_circling :
    circling.SmallLabels ∧
      (∀ cut, circlingRequest.enterWithin cut 3 [] 0 0 { cache := {} } =
        circlingRequest.enterRule [] 0 0 { cache := {} }) ∧
      ∃ ends s, circlingRequest.enterRule [] 0 0 { cache := {} } = .ok ends s ∧ ends = [1, 2] ∧
        ∀ stop ∈ ends, stop < 3 := by
  have small : circling.SmallLabels := by
    refine ⟨by decide, fun n t ht => ?_⟩
    rw [transitionsAt_eq_of_map (a := circling)
      (show _ = [[.epsilon 2, .call 0 2], [], [.predicate 0 0 1, .atom 1 5]] from rfl)] at ht
    match n with
    | 0 | 1 | 2 | n + 3 => simp at ht <;> rcases ht with rfl | rfl <;> simp <;> decide
  obtain ⟨s, hs⟩ := Search.exists_ok_of_run' (show
    (circlingRequest.enterRule [] 0 0).run' { cache := {} } = some [1, 2] by decide +kernel)
  have searched := enterWithin_eq_enterRule (q := circlingRequest) (by decide) small
    Cache.small_empty 0
  exact ⟨small, fun cut => (searched cut).1, [1, 2], s, hs, rfl,
    ((searched (pure [])).2 _ s hs).1⟩

end Request

end GrammarCompletion
