import GrammarCompletion.Proofs.Completion.Termination
import Mathlib.Data.Finset.Basic
import Mathlib.Logic.Function.Basic

/-!
# Entering a rule restores the books

A search passes the rule entries being walked down as frames. `enterLogged` is the search that keeps
books of its own instead: a call stack, the active entries, their seeds, and the order in which entries
were remembered. It pushes and pops, marks and unmarks, forgets what was remembered behind a mark, and
tidies up whether or not it is interrupted. It writes down the books whenever a transition is taken or
a rule is entered, so that what it has written are the states that a request can reach.

Books that show some frames are kept by every step, and the search does with them what the search with
those frames does. So entering any rule in any of these states leaves the books as they were.
-/

namespace GrammarCompletion

/-! ## Books -/

/-- A session with its books: the rules being walked in calling order, the entries being walked, the ends
they give back when they are entered again, and the remembered entries, oldest first. -/
structure Ledger where
  session : Session
  stack : List Nat := []
  active : Finset RuleEntry := ∅
  seeds : RuleEntry → Option (List Nat) := fun _ => none
  order : List RuleEntry := []

namespace Ledger

def push (rule : Nat) (l : Ledger) : Ledger := { l with stack := l.stack ++ [rule] }

def pop (l : Ledger) : Ledger := { l with stack := l.stack.dropLast }

def activate (entry : RuleEntry) (l : Ledger) : Ledger := { l with active := insert entry l.active }

def deactivate (entry : RuleEntry) (l : Ledger) : Ledger :=
  { l with
    active := l.active.erase entry
    seeds := Function.update l.seeds entry none
    session := { l.session with reentered := l.session.reentered.erase entry } }

def plant (entry : RuleEntry) (ends : List Nat) (l : Ledger) : Ledger :=
  { l with seeds := Function.update l.seeds entry (some ends) }

def store (entry : RuleEntry) (ends : List Nat) (l : Ledger) : Ledger :=
  { l with
    session := { l.session with memo := (entry, ends) :: l.session.memo }
    order := l.order ++ [entry] }

/-- Forget all but the `mark` entries that were remembered first. -/
def forget (mark : Nat) (l : Ledger) : Ledger :=
  { l with
    session := { l.session with
      memo := l.session.memo.filter fun known => !(l.order.drop mark).contains known.1 }
    order := l.order.take mark }

end Ledger

/-- The books of a search, and those it had wherever a transition was taken or a rule entered. -/
structure Logbook where
  now : Ledger
  seen : List Ledger := []

abbrev LoggedSearch := EStateM Interruption Logbook

namespace LoggedSearch

variable {α : Type}

def ledger : LoggedSearch Ledger := return (← get).now

theorem ledger_bind (f : Ledger → LoggedSearch α) (t : Logbook) : (ledger >>= f) t = f t.now t := rfl

def change (f : Ledger → Ledger) : LoggedSearch Unit := modify fun t => { t with now := f t.now }

def note : LoggedSearch Unit := modify fun t => { t with seen := t.now :: t.seen }

def lift (x : Search α) : LoggedSearch α := fun t =>
  match x t.now.session with
  | .ok v s => .ok v { t with now := { t.now with session := s } }
  | .error reason s => .error reason { t with now := { t.now with session := s } }

/-- A search between two changes of the books; the second is made even if the search fails. -/
def between (first last : Ledger → Ledger) (x : LoggedSearch α) : LoggedSearch α := fun t =>
  match x { t with now := first t.now } with
  | .ok v t' => .ok v { t' with now := last t'.now }
  | .error reason t' => .error reason { t' with now := last t'.now }

def logAfter (x : LoggedSearch α) (t : Logbook) : Logbook :=
  match x t with
  | .ok _ t' => t'
  | .error _ t' => t'

end LoggedSearch

def framesOf (stack : List Nat) : List Frame := stack.reverse.map fun rule => ⟨⟨rule, 0⟩, none⟩

/-- Record what a rule entered at the caret starts with. The rule is the last one of the stack. -/
def Candidates.addOnStack (engine : Engine) (stack : List Nat) (rule : Nat) (sets : FollowSets)
    (c : Candidates) : Except Overlong Candidates :=
  if engine.preferred.contains (rule : Int) then .ok (c.addOutermost engine (framesOf stack) [])
  else
    sets.sets.foldlM
      (fun c set => c.addBelow engine (framesOf stack) set.path set.symbols set.following) c

namespace Request

open LoggedSearch

section
variable (q : Request) (call : Nat → Nat → LoggedSearch (List Nat))

def takeLogged (index : Nat) (t : Transition) (pending : List Visit) : LoggedSearch (List Visit) := do
  note
  match t with
  | .call rule follow =>
    let ends ← call rule index
    return ends.foldl (fun pending stop => ⟨follow, stop⟩ :: pending) pending
  | .predicate .. | .wildcard .. | .epsilon .. | .atom .. | .set .. | .notSet .. =>
    lift (q.take (fun _ _ => pure []) (framesOf (← ledger).stack) index t pending)

def takeAllLogged (index : Nat) :
    (transitions : List Transition) → (pending : List Visit) → LoggedSearch (List Visit)
  | [], pending => return pending
  | t :: transitions, pending => do
    let pending ← q.takeLogged call index t pending
    takeAllLogged index transitions pending

def walkLogged (expanded : Std.TreeSet Visit Visit.compare) (ends : List Nat) (pending : List Visit) :
    LoggedSearch (List Nat) :=
  match _next : pending.dropWhile (q.isStale expanded) with
  | [] => return ends
  | v :: rest => do
    lift (modify fun s => { s with statesProcessed := s.statesProcessed + 1 })
    match q.engine.automaton.states[v.state]? with
    | none => walkLogged (expanded.insert v) ends rest
    | some state =>
      if state.kind = .ruleStop then
        walkLogged (expanded.insert v) (insertAscending v.index ends) rest
      else
        let pending ← q.takeAllLogged call v.index state.transitions rest
        walkLogged (expanded.insert v) ends pending
termination_by q.visitsLeft expanded
decreasing_by all_goals exact visitsLeft_insert (isStale_head _next)

end

section
variable (q : Request) (cut : LoggedSearch (List Nat))

/-- Repeat a round with a growing seed, `rounds` times at most. -/
def growLogged (entry : RuleEntry) (round : LoggedSearch (List Nat)) :
    (rounds : Nat) → LoggedSearch (List Nat)
  | 0 => cut
  | rounds + 1 => do
    let mark := (← ledger).order.length
    let found ← round
    let l ← ledger
    if l.session.reentered.contains entry then
      let ends := unionEnds found ((l.seeds entry).getD [])
      if outgrows q.window.size (l.seeds entry) ends then
        change fun l => (l.plant entry ends).forget mark
        growLogged entry round rounds
      else return ends
    else return found

def enterBy (walked : Rule → LoggedSearch (List Nat)) (rule index : Nat) : LoggedSearch (List Nat) := do
  note
  let entry : RuleEntry := ⟨rule, index⟩
  let l ← ledger
  match l.session.memo.lookup entry with
  | some ends => return ends
  | none =>
    if entry ∈ l.active then
      lift (modify fun s => { s with reentered := s.reentered.insert entry })
      return (l.seeds entry).getD []
    else
      match q.engine.automaton.rules[rule]? with
      | none => return []
      | some r =>
        let sets ← lift (Session.followSets q r)
        between (Ledger.push rule) Ledger.pop do
          if q.atCaret index then
            lift (record (Candidates.addOnStack q.engine (← ledger).stack rule sets))
            return if sets.canEnd then [index] else []
          else if sets.canEnd || sets.combined.contains (q.symbolAt index) then
            between (Ledger.activate entry) (Ledger.deactivate entry) do
              let ends ← walked r
              change (Ledger.store entry ends)
              return ends
          else return []

/-- Enter a rule, with at most `depth` walks inside each other. -/
def enterLogged : (depth : Nat) → (rule index : Nat) → LoggedSearch (List Nat)
  | 0, rule, index => q.enterBy (fun _ => cut) rule index
  | depth + 1, rule, index =>
    q.enterBy
      (fun r => q.growLogged cut ⟨rule, index⟩ (q.walkLogged (enterLogged depth) ∅ [] [⟨r.start, index⟩])
        (q.window.size + 3))
      rule index

end

end Request

/-! ## Books that show frames -/

namespace Ledger

variable {l : Ledger} {frames : List Frame} {entry : RuleEntry} {seed : Option (List Nat)}

/-- The entries on the books are those of the frames, with their seeds. -/
structure Walks (frames : List Frame) (l : Ledger) : Prop where
  active : ∀ e, e ∈ l.active ↔ ∃ frame ∈ frames, frame.entry = e
  seeds : ∀ e, l.seeds e = (frames.find? fun frame => frame.entry = e).bind Frame.seed

structure Filed (l : Ledger) : Prop where
  order : l.order = (l.session.memo.map Prod.fst).reverse
  nodup : l.order.Nodup

/-- The books are those of a search below the frames. -/
structure Shows (frames : List Frame) (l : Ledger) : Prop where
  stack : l.stack = callStack frames
  walks : l.Walks frames
  filed : l.Filed
  apart : ∀ e ∈ l.active, l.session.memo.lookup e = none

theorem shows_fresh (cache : Cache) : Shows [] { session := { cache := cache } } :=
  ⟨rfl, ⟨by simp, by simp⟩, ⟨rfl, .nil⟩, by simp⟩

theorem Walks.mem_active (h : l.Walks frames) {frame : Frame}
    (found : frames.find? (fun frame => frame.entry = entry) = some frame) : entry ∈ l.active :=
  (h.active entry).mpr ⟨frame, List.mem_of_find?_eq_some found, by simpa using List.find?_some found⟩

theorem Walks.not_mem_active (h : l.Walks frames)
    (inactive : frames.find? (fun frame => frame.entry = entry) = none) : entry ∉ l.active := by
  intro member
  obtain ⟨frame, listed, same⟩ := (h.active entry).mp member
  exact List.find?_eq_none.mp inactive frame listed (by simpa using same)

theorem Walks.activate (h : l.Walks frames)
    (inactive : frames.find? (fun frame => frame.entry = entry) = none) :
    (l.activate entry).Walks (⟨entry, none⟩ :: frames) where
  active e := by simp [Ledger.activate, h.active, eq_comm]
  seeds e := by
    by_cases same : entry = e
    · subst same
      simp [Ledger.activate, h.seeds, inactive]
    · simp [Ledger.activate, h.seeds, same]

theorem Walks.plant (h : l.Walks (⟨entry, seed⟩ :: frames)) (ends : List Nat) :
    (l.plant entry ends).Walks (⟨entry, some ends⟩ :: frames) where
  active e := by simpa [Ledger.plant] using h.active e
  seeds e := by
    have old := h.seeds e
    by_cases same : entry = e
    · simp [Ledger.plant, same]
    · simpa [Ledger.plant, Function.update_of_ne (Ne.symm same), same] using old

theorem Walks.deactivate (h : l.Walks (⟨entry, seed⟩ :: frames))
    (inactive : frames.find? (fun frame => frame.entry = entry) = none) :
    (l.deactivate entry).Walks frames where
  active e := by
    have old := h.active e
    by_cases same : entry = e
    · subst same
      simpa [Ledger.deactivate] using inactive
    · simpa [Ledger.deactivate, same, Ne.symm same] using old
  seeds e := by
    have old := h.seeds e
    by_cases same : entry = e
    · subst same
      simp [Ledger.deactivate, inactive]
    · simpa [Ledger.deactivate, Function.update_of_ne (Ne.symm same), same] using old

theorem lookup_eq_none_iff {memo : List (RuleEntry × List Nat)} :
    memo.lookup entry = none ↔ entry ∉ memo.map Prod.fst := by
  rw [List.lookup_eq_none_iff, List.mem_map]
  constructor
  · rintro other ⟨known, listed, rfl⟩
    simpa using other known listed
  · intro other known listed
    simpa using fun same : entry = known.1 => other ⟨known, listed, same.symm⟩

theorem Filed.store (h : l.Filed) (unknown : l.session.memo.lookup entry = none) (ends : List Nat) :
    (l.store entry ends).Filed where
  order := by simp [Ledger.store, h.order]
  nodup := by
    have isNew : entry ∉ l.order := by
      rw [h.order, List.mem_reverse]
      exact lookup_eq_none_iff.mp unknown
    simpa [Ledger.store, List.nodup_append] using ⟨h.nodup, fun e known same => isNew (same ▸ known)⟩

/-- What has been remembered behind a mark is forgotten again. -/
theorem Filed.forget {l' : Ledger} (h : l.Filed) (h' : l'.Filed)
    (grown : l.session.memo <:+ l'.session.memo) :
    (l'.forget l.order.length).session.memo = l.session.memo ∧
      (l'.forget l.order.length).order = l.order := by
  obtain ⟨new, grown⟩ := grown
  have order : l'.order = l.order ++ (new.map Prod.fst).reverse := by
    rw [h'.order, ← grown, h.order]
    simp
  have nodup := h'.nodup
  rw [order, List.nodup_append] at nodup
  refine ⟨?_, by simp [Ledger.forget, order]⟩
  simp only [Ledger.forget, order, List.drop_left, ← grown, List.filter_append]
  have dropped : new.filter (fun known => !(new.map Prod.fst).reverse.contains known.1) = [] := by
    rw [List.filter_eq_nil_iff]
    intro known listed
    simpa using ⟨known.2, listed⟩
  have kept : l.session.memo.filter (fun known => !(new.map Prod.fst).reverse.contains known.1) =
      l.session.memo := by
    rw [List.filter_eq_self]
    intro known listed
    have old : known.1 ∈ l.order := by
      rw [h.order, List.mem_reverse]
      exact List.mem_map_of_mem listed
    rw [Bool.not_eq_true', ← Bool.not_eq_true, List.contains_iff_mem]
    exact fun again => nodup.2.2 _ old _ again rfl
  rw [dropped, kept, List.nil_append]

/-- A round is begun again with what was remembered before it and a new seed. -/
theorem Shows.replant {l' : Ledger} (h : l.Shows (⟨entry, seed⟩ :: frames))
    (h' : l'.Shows (⟨entry, seed⟩ :: frames)) (grown : l.session.memo <:+ l'.session.memo)
    (ends : List Nat) :
    ((l'.plant entry ends).forget l.order.length).Shows (⟨entry, some ends⟩ :: frames) := by
  have filed : (l'.plant entry ends).Filed := ⟨h'.filed.order, h'.filed.nodup⟩
  obtain ⟨memo, order⟩ := h.filed.forget filed grown
  have walks := h'.walks.plant ends
  refine ⟨h'.stack, ⟨walks.active, walks.seeds⟩, ⟨?_, ?_⟩, fun e member => ?_⟩
  · rw [order, memo]
    exact h.filed.order
  · rw [order]
    exact h.filed.nodup
  · rw [memo]
    exact h.apart e ((h.walks.active e).mpr ((h'.walks.active e).mp member))

theorem pop_push (rule : Nat) (l : Ledger) : (l.push rule).pop = l := by
  simp [push, pop]

theorem Shows.activate (h : l.Shows frames)
    (inactive : frames.find? (fun frame => frame.entry = entry) = none)
    (unknown : l.session.memo.lookup entry = none) :
    ((l.push entry.rule).activate entry).Shows (⟨entry, none⟩ :: frames) := by
  have walks := h.walks.activate inactive
  refine ⟨?_, ⟨walks.active, walks.seeds⟩, ⟨h.filed.order, h.filed.nodup⟩, fun e member => ?_⟩
  · rw [Request.callStack_cons, ← h.stack]
    rfl
  · rcases Finset.mem_insert.mp member with rfl | old
    · exact unknown
    · exact h.apart e old

theorem Shows.abandon (h : l.Shows (⟨entry, seed⟩ :: frames))
    (inactive : frames.find? (fun frame => frame.entry = entry) = none) :
    (l.deactivate entry).pop.Shows frames := by
  have walks := h.walks.deactivate inactive
  refine ⟨?_, ⟨walks.active, walks.seeds⟩, ⟨h.filed.order, h.filed.nodup⟩, fun e member => ?_⟩
  · simp [Ledger.pop, Ledger.deactivate, h.stack, Request.callStack_cons]
  · exact h.apart e (Finset.mem_of_mem_erase member)

theorem Shows.finish (h : l.Shows (⟨entry, seed⟩ :: frames))
    (inactive : frames.find? (fun frame => frame.entry = entry) = none) (ends : List Nat) :
    ((l.store entry ends).deactivate entry).pop.Shows frames := by
  -- an active entry is not remembered, so it is new in the order
  have active : entry ∈ l.active := (h.walks.active entry).mpr ⟨⟨entry, seed⟩, by simp, rfl⟩
  have filed := h.filed.store (h.apart entry active) ends
  have walks := h.walks.deactivate inactive
  refine ⟨?_, ⟨walks.active, walks.seeds⟩, ⟨filed.order, filed.nodup⟩, fun e member => ?_⟩
  · simp [Ledger.pop, Ledger.deactivate, Ledger.store, h.stack, Request.callStack_cons]
  · obtain ⟨other, old⟩ := Finset.mem_erase.mp member
    simp only [Ledger.pop, Ledger.deactivate, Ledger.store, List.lookup_cons, beq_false_of_ne other]
    exact h.apart e old

end Ledger

/-! ## Searches that do the same -/

/-- A search goes on to books with a property. It forgets nothing, and all books it writes down show some
frames. -/
structure Onward (P : Ledger → Prop) (t t' : Logbook) : Prop where
  now : P t'.now
  memo : t.now.session.memo <:+ t'.now.session.memo
  seen : ∀ l ∈ t'.seen, l ∈ t.seen ∨ ∃ frames, l.Shows frames

theorem Onward.refl {P : Ledger → Prop} {t : Logbook} (now : P t.now) : Onward P t t :=
  ⟨now, List.suffix_refl _, fun _ => .inl⟩

theorem Onward.mono {P Q : Ledger → Prop} {t t' : Logbook} (h : Onward P t t') (weaker : ∀ l, P l → Q l) :
    Onward Q t t' := ⟨weaker _ h.now, h.memo, h.seen⟩

theorem Onward.trans {P Q : Ledger → Prop} {t t' t'' : Logbook} (h : Onward P t t') (h' : Onward Q t' t'') :
    Onward Q t t'' where
  now := h'.now
  memo := h.memo.trans h'.memo
  seen l member := (h'.seen l member).elim (h.seen l) .inr

/-- A search that keeps its own books and one that does not end alike: with the same value in the same
session, or for the same reason in a session that differs at most in the entries entered again. -/
inductive Mirrored {α : Type} (P : Ledger → Prop) (t : Logbook) :
    EStateM.Result Interruption Logbook α → EStateM.Result Interruption Session α → Prop where
  | ok {v : α} {t' : Logbook} (onward : Onward P t t') : Mirrored P t (.ok v t') (.ok v t'.now.session)
  | error {reason : Interruption} {t' : Logbook} {s : Session} (onward : Onward P t t')
      (same : t'.now.session = { s with reentered := t'.now.session.reentered }) :
      Mirrored P t (.error reason t') (.error reason s)

namespace Mirrored

variable {α β : Type} {P Q : Ledger → Prop} {t t' : Logbook} {s : Session}

theorem before {r : EStateM.Result Interruption Logbook α} {r' : EStateM.Result Interruption Session α}
    (h : Mirrored Q t' r r') (onward : Onward P t t') : Mirrored Q t r r' := by
  cases h with
  | ok onward' => exact .ok (onward.trans onward')
  | error onward' same => exact .error (onward.trans onward') same

theorem bind {x : LoggedSearch α} {y : Search α} {f : α → LoggedSearch β} {g : α → Search β}
    (h : Mirrored P t (x t) (y s)) (weaker : ∀ l, P l → Q l)
    (next : ∀ v t', Onward P t t' → Mirrored Q t (f v t') (g v t'.now.session)) :
    Mirrored Q t ((x >>= f) t) ((y >>= g) s) := by
  simp only [Bind.bind, EStateM.bind]
  generalize x t = r at h
  generalize y s = r' at h
  cases h with
  | ok onward => exact next _ _ onward
  | error onward same => exact .error (onward.mono weaker) same

end Mirrored

/-- Below the frames, both searches do the same and leave books that show them. -/
def Mirrors {α : Type} (frames : List Frame) (x : LoggedSearch α) (y : Search α) : Prop :=
  ∀ t : Logbook, t.now.Shows frames → Mirrored (Ledger.Shows frames) t (x t) (y t.now.session)

namespace Mirrors

variable {α β : Type} {frames : List Frame}

theorem pure (v : α) : Mirrors frames (Pure.pure v) (Pure.pure v) :=
  fun _ shows => .ok (.refl shows)

theorem bind {x : LoggedSearch α} {y : Search α} {f : α → LoggedSearch β} {g : α → Search β}
    (h : Mirrors frames x y) (next : ∀ v, Mirrors frames (f v) (g v)) :
    Mirrors frames (x >>= f) (y >>= g) :=
  fun t shows => (h t shows).bind (fun _ => id) fun v t' onward => (next v t' onward.now).before onward

theorem note {x : LoggedSearch α} {y : Search α} (h : Mirrors frames x y) :
    Mirrors frames (LoggedSearch.note >>= fun _ => x) y := by
  intro t shows
  refine (h ⟨t.now, t.now :: t.seen⟩ shows).before ⟨shows, List.suffix_refl _, fun l member => ?_⟩
  rcases List.mem_cons.mp member with rfl | old
  · exact .inr ⟨frames, shows⟩
  · exact .inl old

theorem ledger {f : Ledger → LoggedSearch α} {y : Search α}
    (h : ∀ l : Ledger, l.Shows frames → Mirrors frames (f l) y) :
    Mirrors frames (LoggedSearch.ledger >>= f) y :=
  fun t shows => h t.now shows t shows

end Mirrors

/-! ## Searches that remember nothing -/

/-- What is remembered stays as it is, whether or not the search fails. -/
def KeepsMemo {α : Type} (y : Search α) : Prop :=
  ∀ s : Session,
    match y s with
    | .ok _ s' => s'.memo = s.memo
    | .error _ s' => s'.memo = s.memo

namespace KeepsMemo

variable {α β : Type} {q : Request}

theorem pure (v : α) : KeepsMemo (Pure.pure v) := fun _ => rfl

theorem modify {f : Session → Session} (h : ∀ s, (f s).memo = s.memo) : KeepsMemo (modify f) := h

theorem record (change : Candidates → Except Overlong Candidates) :
    KeepsMemo (Request.record change) := by
  intro s
  rw [Request.record_apply]
  cases change s.candidates with
  | ok c => rfl
  | error fault => rfl

theorem bind {x : Search α} {f : α → Search β} (first : KeepsMemo x) (next : ∀ v, KeepsMemo (f v)) :
    KeepsMemo (x >>= f) := by
  intro s
  have kept := first s
  simp only [Bind.bind, EStateM.bind]
  cases ran : x s with
  | error failure s' =>
    rw [ran] at kept
    exact kept
  | ok v s' =>
    rw [ran] at kept
    have kept' := next v s'
    rw [show s'.memo = s.memo from kept] at kept'
    exact kept'

theorem ask (q : Request) (call : PredicateCall) : KeepsMemo (Session.ask q call) := by
  intro s
  unfold Session.ask
  rw [Search.get_bind]
  cases askPredicate q.evaluator s.asked call with
  | mk answer asked =>
    cases answer with
    | ok holds => rfl
    | error failure => rfl

theorem followSets (q : Request) (r : Rule) : KeepsMemo (Session.followSets q r) := by
  intro s
  unfold Session.followSets
  rw [Search.get_bind]
  cases s.cache.find? (Session.keyOf q r) with
  | some sets => rfl
  | none =>
    dsimp only
    cases (FollowSets.ofRule q.engine.automaton q.engine.ignored q.evaluator s.asked r).result with
    | ok sets => rfl
    | error failure => rfl

theorem takeSymbol (q : Request) (frames : List Frame) (index : Nat) (t : Transition) (target : Nat)
    (pending : List Visit) : KeepsMemo (q.takeSymbol frames index t target pending) := by
  unfold Request.takeSymbol
  split
  case h_1 => exact pure _
  case h_2 =>
    split
    case isTrue => exact pure _
    case isFalse =>
      split
      case isTrue => exact (record _).bind fun _ => pure _
      case isFalse =>
        split
        case isTrue => exact pure _
        case isFalse => exact pure _

/-- Taking a transition remembers nothing but what a call does. -/
theorem take {call : Nat → Nat → Search (List Nat)} (called : ∀ rule place, KeepsMemo (call rule place))
    (frames : List Frame) (index : Nat) (t : Transition) (pending : List Visit) :
    KeepsMemo (q.take call frames index t pending) := by
  cases t with
  | call rule follow => exact (called rule index).bind fun _ => pure _
  | predicate target rule number =>
    refine (ask q _).bind fun answer => ?_
    cases answer with
    | false => exact pure _
    | true => exact pure _
  | wildcard target =>
    simp only [Request.take]
    split
    case isTrue => exact (record _).bind fun _ => pure _
    case isFalse => exact pure _
  | epsilon target =>
    simp only [Request.take]
    split
    case isTrue => exact (record _).bind fun _ => pure _
    case isFalse => exact pure _
  | atom target | set target | notSet target =>
    simp only [Request.take]
    exact takeSymbol q frames index _ target pending

end KeepsMemo

theorem Ledger.Shows.of_memo {l : Ledger} {frames : List Frame} (h : l.Shows frames) {s : Session}
    (memo : s.memo = l.session.memo) : Shows frames { l with session := s } where
  stack := h.stack
  walks := ⟨h.walks.active, h.walks.seeds⟩
  filed := ⟨by rw [memo]; exact h.filed.order, h.filed.nodup⟩
  apart := by rw [memo]; exact h.apart

theorem Mirrored.lift {α : Type} {P : Ledger → Prop} {y : Search α} (kept : KeepsMemo y) {t : Logbook}
    (keeps : ∀ s : Session, s.memo = t.now.session.memo → P { t.now with session := s }) :
    Mirrored P t (LoggedSearch.lift y t) (y t.now.session) := by
  have memo := kept t.now.session
  unfold LoggedSearch.lift
  cases ran : y t.now.session with
  | ok v s =>
    rw [ran] at memo
    exact .ok ⟨keeps s memo, ⟨[], memo.symm⟩, fun _ => .inl⟩
  | error reason s =>
    rw [ran] at memo
    exact .error ⟨keeps s memo, ⟨[], memo.symm⟩, fun _ => .inl⟩ rfl

theorem Mirrors.lift {α : Type} {frames : List Frame} {y : Search α} (kept : KeepsMemo y) :
    Mirrors frames (LoggedSearch.lift y) y :=
  fun _ shows => .lift kept fun _ => shows.of_memo

/-! ## The call stack -/

theorem callStack_framesOf (stack : List Nat) : callStack (framesOf stack) = stack := by
  simp [callStack, framesOf, Function.comp_def]

namespace Candidates

variable {engine : Engine} {frames frames' : List Frame} {path path' : List Nat}

theorem addBelow_congr (same : callStack frames ++ path = callStack frames' ++ path') (set : IntervalSet)
    (following : List Symbol) (c : Candidates) :
    c.addBelow engine frames path set following = c.addBelow engine frames' path' set following := by
  simp only [addBelow, same]

theorem addOutermost_congr (same : callStack frames ++ path = callStack frames' ++ path') (c : Candidates) :
    c.addOutermost engine frames path = c.addOutermost engine frames' path' := by
  simp only [addOutermost, same]

theorem addOnStack_callStack (frames : List Frame) (rule : Nat) (sets : FollowSets) (c : Candidates) :
    c.addOnStack engine (callStack frames ++ [rule]) rule sets = c.addFollowSets engine frames rule sets := by
  have same (path : List Nat) :
      callStack (framesOf (callStack frames ++ [rule])) ++ path = callStack frames ++ rule :: path := by
    rw [callStack_framesOf, List.append_assoc, List.singleton_append]
  simp only [addOnStack, addFollowSets, addOutermost_congr (same []), addBelow_congr (same _)]

end Candidates

namespace Request

variable {q : Request} {frames : List Frame}

/-- What a transition other than a call does depends on the call stack only. -/
theorem take_congr {frames' : List Frame} (same : callStack frames' = callStack frames) {t : Transition}
    (silent : ∀ rule follow, t ≠ .call rule follow) (call call' : Nat → Nat → Search (List Nat))
    (index : Nat) (pending : List Visit) :
    q.take call' frames' index t pending = q.take call frames index t pending := by
  cases t with
  | call rule follow => exact absurd rfl (silent rule follow)
  | predicate | wildcard | epsilon | atom | set | notSet =>
    simp only [take, takeSymbol, Candidates.addBelow, Candidates.addOutermost, same]

/-! ## Walks -/

variable {call : Nat → Nat → LoggedSearch (List Nat)} {call' : Nat → Nat → Search (List Nat)}

theorem takeLogged_mirrors (hcall : ∀ rule place, Mirrors frames (call rule place) (call' rule place))
    (index : Nat) (t : Transition) (pending : List Visit) :
    Mirrors frames (q.takeLogged call index t pending) (q.take call' frames index t pending) := by
  cases t with
  | call rule follow => exact .note ((hcall rule index).bind fun _ => .pure _)
  | predicate | wildcard | epsilon | atom | set | notSet =>
    refine .note (.ledger fun l shows => ?_)
    have same : callStack (framesOf l.stack) = callStack frames := by rw [callStack_framesOf, shows.stack]
    rw [← take_congr same (by simp) call' fun _ _ => pure []]
    exact .lift (.take (fun _ _ => .pure _) _ _ _ _)

theorem takeAllLogged_mirrors (hcall : ∀ rule place, Mirrors frames (call rule place) (call' rule place))
    (index : Nat) (transitions : List Transition) (pending : List Visit) :
    Mirrors frames (q.takeAllLogged call index transitions pending)
      (q.takeAll call' frames index transitions pending) := by
  induction transitions generalizing pending with
  | nil => exact .pure _
  | cons t transitions ih => exact (takeLogged_mirrors hcall index t pending).bind ih

theorem walkLogged_mirrors (hcall : ∀ rule place, Mirrors frames (call rule place) (call' rule place))
    (expanded : Std.TreeSet Visit Visit.compare) (ends : List Nat) (pending : List Visit) :
    Mirrors frames (q.walkLogged call expanded ends pending)
      (q.walkFrom call' frames expanded ends pending) := by
  induction expanded, ends, pending using walkFrom.induct q with
  | case1 expanded ends pending next =>
    rw [walkFrom_nil next, walkLogged]
    split
    case h_1 => exact .pure _
    case h_2 other => exact absurd (next.symm.trans other) (by simp)
  | case2 expanded ends pending v rest next _ ihStop ihTake =>
    have known := (isStale_eq_false.mp (isStale_head next)).2.1
    have found : q.engine.automaton.states[v.state]? = some q.engine.automaton.states[v.state] :=
      Array.getElem?_eq_getElem known
    rw [walkFrom_cons next found, walkLogged]
    split
    case h_1 other => exact absurd (next.symm.trans other) (by simp)
    case h_2 other =>
      cases next.symm.trans other
      simp only [found]
      refine Mirrors.bind (.lift (.modify fun _ => rfl)) fun _ => ?_
      by_cases kind : q.engine.automaton.states[v.state].kind = .ruleStop
      · rw [if_pos kind, if_pos kind]
        exact ihStop
      · rw [if_neg kind, if_neg kind]
        exact (takeAllLogged_mirrors hcall v.index _ rest).bind ihTake

/-! ## Seeds -/

variable {cut : LoggedSearch (List Nat)} {entry : RuleEntry} {seed : Option (List Nat)}

def ShowsBelow (frames : List Frame) (entry : RuleEntry) (l : Ledger) : Prop :=
  ∃ seed, l.Shows (⟨entry, seed⟩ :: frames)

theorem growLogged_mirrors {round : LoggedSearch (List Nat)} {round' : Option (List Nat) → Search (List Nat)}
    (hround : ∀ seed, Mirrors (⟨entry, seed⟩ :: frames) round (round' seed)) {rounds : Nat}
    (enough : roundsLeft q.window.size seed < rounds) {t : Logbook}
    (shows : t.now.Shows (⟨entry, seed⟩ :: frames)) :
    Mirrored (ShowsBelow frames entry) t (q.growLogged cut entry round rounds t)
      (grow q.window.size entry round' seed t.now.session) := by
  induction rounds generalizing seed t with
  | zero => exact absurd enough (Nat.not_lt_zero _)
  | succ rounds ih =>
    unfold growLogged
    rw [grow]
    refine (hround seed t shows).bind (fun l shows => ⟨seed, shows⟩) fun found t' onward => ?_
    have planted : t'.now.seeds entry = seed := by
      rw [onward.now.walks.seeds]
      simp
    rw [LoggedSearch.ledger_bind, Search.get_bind]
    by_cases again : t'.now.session.reentered.contains entry = true
    · rw [if_pos again, if_pos again]
      simp only [planted]
      by_cases more : outgrows q.window.size seed (unionEnds found (seed.getD [])) = true
      · rw [if_pos more, dif_pos more]
        have left := roundsLeft_lt more
        -- the next round starts with the old memo and the new seed
        let restart : Logbook :=
          ⟨(t'.now.plant entry (unionEnds found (seed.getD []))).forget t.now.order.length, t'.seen⟩
        have replanted := shows.replant onward.now onward.memo (unionEnds found (seed.getD []))
        have memo : restart.now.session.memo = t.now.session.memo :=
          (shows.filed.forget onward.now.filed onward.memo).1
        have next : Mirrored (ShowsBelow frames entry) restart (q.growLogged cut entry round rounds restart)
            (grow q.window.size entry round' _ { t'.now.session with memo := restart.now.session.memo }) :=
          ih (by omega) replanted
        rw [memo] at next
        exact next.before ⟨replanted, ⟨[], memo.symm⟩, onward.seen⟩
      · rw [if_neg more, dif_neg more]
        exact .ok (onward.mono fun l shows => ⟨seed, shows⟩)
    · rw [if_neg again, if_neg again]
      exact .ok (onward.mono fun l shows => ⟨seed, shows⟩)

/-! ## Rules that are entered -/

theorem Mirrored.pushed {x : LoggedSearch (List Nat)} {y : Search (List Nat)} {t : Logbook} {rule : Nat}
    (h : Mirrored (fun l => l.pop.Shows frames) ⟨t.now.push rule, t.seen⟩ (x ⟨t.now.push rule, t.seen⟩)
      (y t.now.session)) :
    Mirrored (Ledger.Shows frames) t (LoggedSearch.between (Ledger.push rule) Ledger.pop x t)
      (y t.now.session) := by
  unfold LoggedSearch.between
  generalize x ⟨t.now.push rule, t.seen⟩ = r at h
  generalize y t.now.session = r' at h
  cases h with
  | ok onward => exact .ok ⟨onward.now, onward.memo, onward.seen⟩
  | error onward same => exact .error ⟨onward.now, onward.memo, onward.seen⟩ same

/-- An entry is on the books while it is walked, and remembered afterwards if the walk does not fail. -/
theorem Mirrored.activated {x : LoggedSearch (List Nat)} {y : Search (List Nat)} {t : Logbook}
    (inactive : frames.find? (fun frame => frame.entry = entry) = none)
    (h : Mirrored (ShowsBelow frames entry) ⟨t.now.activate entry, t.seen⟩
      (x ⟨t.now.activate entry, t.seen⟩) (y t.now.session)) :
    Mirrored (fun l => l.pop.Shows frames) t
      (LoggedSearch.between (Ledger.activate entry) (Ledger.deactivate entry) (do
        let ends ← x
        LoggedSearch.change (Ledger.store entry ends)
        return ends) t)
      ((do
        let ends ← y
        modify fun s => finish s entry ends
        return ends) t.now.session) := by
  simp only [LoggedSearch.between, Bind.bind, EStateM.bind]
  generalize x ⟨t.now.activate entry, t.seen⟩ = r at h
  generalize y t.now.session = r' at h
  cases h with
  | @ok ends t' onward =>
    obtain ⟨seed, shows⟩ := onward.now
    exact .ok ⟨shows.finish inactive ends, onward.memo.trans (List.suffix_cons _ _), onward.seen⟩
  | @error failure t' s onward same =>
    obtain ⟨seed, shows⟩ := onward.now
    -- the entry may have been entered again before the failure, and is no longer marked so
    refine .error ⟨shows.abandon inactive, onward.memo, onward.seen⟩ ?_
    exact congrArg (fun s => { s with reentered := t'.now.session.reentered.erase entry }) same

/-- Entering a rule goes as well as the walk does that it comes to. -/
theorem enterBy_mirrors {walked : Rule → LoggedSearch (List Nat)} {rule index : Nat}
    (hwalked : frames.find? (fun frame => frame.entry = ⟨rule, index⟩) = none → ∀ r,
      q.engine.automaton.rules[rule]? = some r → q.atCaret index = false → ∀ t : Logbook,
        t.now.Shows (⟨⟨rule, index⟩, none⟩ :: frames) →
          Mirrored (ShowsBelow frames ⟨rule, index⟩) t (walked r t)
            (grow q.window.size ⟨rule, index⟩ (q.round frames ⟨rule, index⟩ r) none t.now.session)) :
    Mirrors frames (q.enterBy walked rule index) (q.enterRule frames rule index) := by
  rw [enterRule_eq]
  refine .note fun t shows => ?_
  rw [LoggedSearch.ledger_bind, Search.get_bind]
  cases known : t.now.session.memo.lookup ⟨rule, index⟩ with
  | some ends => exact Mirrors.pure _ t shows
  | none =>
    cases active : frames.find? (fun frame => frame.entry = ⟨rule, index⟩) with
    | some frame =>
      have seed : t.now.seeds ⟨rule, index⟩ = frame.seed := by rw [shows.walks.seeds, active]; rfl
      simp only [if_pos (shows.walks.mem_active active), seed]
      refine Mirrors.bind (.lift (.modify ?_)) (fun _ => .pure _) t shows
      exact fun _ => rfl
    | none =>
      simp only [if_neg (shows.walks.not_mem_active active)]
      cases hr : q.engine.automaton.rules[rule]? with
      | none => exact Mirrors.pure _ t shows
      | some r =>
        have surveyed := Mirrored.lift (.followSets q r)
          (P := fun l => l.Shows frames ∧ l.session.memo = t.now.session.memo)
          fun s memo => ⟨shows.of_memo memo, memo⟩
        refine surveyed.bind (fun _ => And.left) fun sets t' onward => ?_
        obtain ⟨shows', memo⟩ := onward.now
        refine Mirrored.before (Mirrored.pushed ?_) onward
        have popped : ((t'.now.push rule).pop).Shows frames := by rwa [Ledger.pop_push]
        by_cases hc : q.atCaret index = true
        · rw [if_pos hc, if_pos hc, LoggedSearch.ledger_bind]
          have stack : (t'.now.push rule).stack = callStack frames ++ [rule] := by
            rw [← shows'.stack]
            rfl
          rw [stack, funext (Candidates.addOnStack_callStack frames rule sets)]
          exact (Mirrored.lift (.record _) fun _ => popped.of_memo).bind (fun _ => id)
            fun _ _ onward => .ok onward
        · rw [if_neg hc, if_neg hc]
          by_cases enters : (sets.canEnd || sets.combined.contains (q.symbolAt index)) = true
          · rw [if_pos enters, if_pos enters]
            have unknown : t'.now.session.memo.lookup ⟨rule, index⟩ = none := by rw [memo, known]
            exact Mirrored.activated active
              (hwalked active r hr (by simpa using hc) _ (shows'.activate active unknown))
          · rw [if_neg enters, if_neg enters]
            exact .ok (.refl popped)

/-- A rule that is walked leaves fewer entries to walk inside it. -/
theorem entriesLeft_below {rule index : Nat} {r : Rule}
    (inactive : frames.find? (fun frame => frame.entry = ⟨rule, index⟩) = none)
    (known : q.engine.automaton.rules[rule]? = some r) (before : q.atCaret index = false)
    (seed : Option (List Nat)) :
    q.entriesLeft (⟨⟨rule, index⟩, seed⟩ :: frames) < q.entriesLeft frames := by
  refine entriesLeft_push inactive (Array.getElem?_eq_some_iff.mp known).choose ?_ seed
  simp only [atCaret, decide_eq_false_iff_not] at before
  change index < q.window.size
  omega

theorem enterLogged_mirrors {depth : Nat} {frames : List Frame} {rule index : Nat}
    (enough : q.entriesLeft frames ≤ depth) :
    Mirrors frames (q.enterLogged cut depth rule index) (q.enterRule frames rule index) := by
  induction depth generalizing frames rule index with
  | zero =>
    refine enterBy_mirrors fun inactive r known before => ?_
    have left := entriesLeft_below inactive known before none
    omega
  | succ depth ih =>
    refine enterBy_mirrors fun inactive r known before t shows => ?_
    refine growLogged_mirrors (fun seed => ?_) (Nat.lt_succ_self _) shows
    have left := entriesLeft_below inactive known before seed
    exact walkLogged_mirrors (fun callee place => ih (by omega)) _ _ _

end Request

/-! ## Restored books -/

/-- The books are what they were, apart from entries that are remembered in addition. Each remembered
entry is in the order once, and none is active. -/
structure Ledger.Restored (l l' : Ledger) : Prop where
  stack : l'.stack = l.stack
  active : l'.active = l.active
  seeds : l'.seeds = l.seeds
  kept : ∀ e ends, l.session.memo.lookup e = some ends → l'.session.memo.lookup e = some ends
  keys : (l'.session.memo.map Prod.fst).Perm l'.order
  nodup : l'.order.Nodup
  apart : ∀ e ∈ l'.active, l'.session.memo.lookup e = none

theorem Ledger.Filed.lookup_of_suffix {l' : Ledger} (h : l'.Filed) {memo : List (RuleEntry × List Nat)}
    (grown : memo <:+ l'.session.memo) {e : RuleEntry} {ends : List Nat}
    (known : memo.lookup e = some ends) : l'.session.memo.lookup e = some ends := by
  obtain ⟨new, grown⟩ := grown
  have nodup := h.nodup
  rw [h.order, List.nodup_reverse, ← grown, List.map_append, List.nodup_append] at nodup
  have old : e ∈ memo.map Prod.fst := by
    by_contra missing
    rw [Ledger.lookup_eq_none_iff.mpr missing] at known
    cases known
  have other : new.lookup e = none :=
    Ledger.lookup_eq_none_iff.mpr fun again => nodup.2.2 e again e old rfl
  rw [← grown, List.lookup_append, other, Option.none_or, known]

theorem Ledger.Shows.restored {l l' : Ledger} {frames : List Frame} (h : l.Shows frames)
    (h' : l'.Shows frames) (grown : l.session.memo <:+ l'.session.memo) : l.Restored l' where
  stack := h'.stack.trans h.stack.symm
  active := Finset.ext fun e => (h'.walks.active e).trans (h.walks.active e).symm
  seeds := funext fun e => (h'.walks.seeds e).trans (h.walks.seeds e).symm
  kept _ _ := h'.filed.lookup_of_suffix grown
  keys := by
    rw [h'.filed.order]
    exact (List.reverse_perm _).symm
  nodup := h'.filed.nodup
  apart := h'.apart

theorem Mirrored.onward {α : Type} {P : Ledger → Prop} {x : LoggedSearch α} {t : Logbook}
    {r : EStateM.Result Interruption Session α} (h : Mirrored P t (x t) r) :
    Onward P t (x.logAfter t) := by
  unfold LoggedSearch.logAfter
  generalize x t = result at h
  cases h with
  | ok onward => exact onward
  | error onward => exact onward

/-- A search that keeps its own books does what a request does. In every state it reaches, entering any
rule at any position with any evaluator leaves the call stack, the active entries and the seeds as they
were, forgets nothing, keeps each remembered entry in the order once, and remembers no active entry,
whether or not the search is interrupted. Calls nest no deeper than there are entries. -/
theorem entering_restores_books (q : Request) (cache : Cache) (start : Nat) (cut : LoggedSearch (List Nat)) :
    let depth := q.engine.automaton.rules.size * q.window.size
    let fresh : Logbook := { now := { session := { cache := cache } } }
    Mirrored (Ledger.Shows []) fresh (q.enterLogged cut depth start 0 fresh)
      (q.enterRule [] start 0 { cache := cache }) ∧
    ∀ l ∈ ((q.enterLogged cut depth start 0).logAfter fresh).seen, ∀ evaluator rule index,
      l.Restored
        (({ q with evaluator := evaluator }.enterLogged cut depth rule index).logAfter { now := l }).now := by
  intro depth fresh
  have run : Mirrored (Ledger.Shows []) fresh (q.enterLogged cut depth start 0 fresh)
      (q.enterRule [] start 0 { cache := cache }) :=
    Request.enterLogged_mirrors (Request.entriesLeft_le []) fresh (Ledger.shows_fresh cache)
  refine ⟨run, fun l member evaluator rule index => ?_⟩
  rcases run.onward.seen l member with old | ⟨frames, shows⟩
  · cases old
  · let q' : Request := { q with evaluator := evaluator }
    have enough : q'.entriesLeft frames ≤ depth := Request.entriesLeft_le frames
    have entered : Onward (Ledger.Shows frames) { now := l }
        ((q'.enterLogged cut depth rule index).logAfter { now := l }) :=
      (Request.enterLogged_mirrors enough { now := l } shows).onward
    exact shows.restored entered.now entered.memo

/-- A sum is a term, or a sum and a term with a plus in between; a term asks a predicate. -/
def sums : Automaton :=
  (((((((((Automaton.empty.addRule "sum").addRule "term").addState 0 .basic).addState 0 .basic).addState 1
    .basic).connect 0 (.call 1 1)).connect 0 (.call 0 4)).connect 4 (.atom 5 7)).connect 5
    (.call 1 1)).connect 2 (.predicate 6 1 0) |>.connect 6 (.atom 3 5)

/-- A request behind the second plus, with the predicate left open. -/
def sumsRequest : Request where
  engine := ⟨sums, .automaton 0, [], []⟩
  window := #[{ symbol := 5 }, { symbol := 7 }, { symbol := 5 }, { symbol := 7 }, { symbol := -1 }]
  evaluator := none

theorem entering_restores_books_sums :
    let fresh : Logbook := { now := { session := { cache := {} } } }
    let failing : Request := { sumsRequest with evaluator := some fun _ _ => .error ⟨"down", []⟩ }
    ∃ l ∈ ((sumsRequest.enterLogged (pure []) 10 0 0).logAfter fresh).seen,
      (l.stack = [0] ∧ l.active = {⟨0, 0⟩} ∧ l.seeds ⟨0, 0⟩ = some [1, 3] ∧ l.order = [⟨1, 0⟩] ∧
        (failing.enterLogged (pure []) 10 1 2).run' { now := l } = none) ∧
      l.Restored ((failing.enterLogged (pure []) 10 1 2).logAfter { now := l }).now := by
  intro fresh failing
  have reached : ((sumsRequest.enterLogged (pure []) 10 0 0).logAfter fresh).seen.any (fun l =>
      decide (l.stack = [0] ∧ l.active = {⟨0, 0⟩} ∧ l.seeds ⟨0, 0⟩ = some [1, 3] ∧ l.order = [⟨1, 0⟩] ∧
        (failing.enterLogged (pure []) 10 1 2).run' { now := l } = none)) = true := by
    decide +kernel
  obtain ⟨l, member, books⟩ := List.any_eq_true.mp reached
  exact ⟨l, member, of_decide_eq_true books,
    (entering_restores_books sumsRequest {} 0 (pure [])).2 l member failing.evaluator 1 2⟩

end GrammarCompletion
