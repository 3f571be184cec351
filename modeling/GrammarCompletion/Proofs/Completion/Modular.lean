import GrammarCompletion.Proofs.Completion.Search

/-!
# Properties of all searches

A search is put together from few parts: it returns values, puts searches one after the other, looks
at what it remembers and changes it, records candidates, asks the evaluator and looks for follow sets. A
property that these parts have, and that putting them together keeps, holds of entering a rule.
-/

namespace GrammarCompletion

/-- Change what a session remembers. The cache, the questions and the candidates stay as they are. -/
def Session.adjust (memo : List (RuleEntry × List Nat) → List (RuleEntry × List Nat))
    (reentered : List RuleEntry → List RuleEntry) (statesProcessed : Nat → Nat) (s : Session) :
    Session :=
  { s with
    memo := memo s.memo, reentered := reentered s.reentered
    statesProcessed := statesProcessed s.statesProcessed }

/-- A property of searches that is kept by every way in which the searches of a request are put
together. -/
structure Request.Modular (q : Request) (P : ∀ α : Type, Search α → Prop) : Prop where
  pure : ∀ {α : Type} (v : α), P α (pure v)
  bind : ∀ {α β : Type} {x : Search α} {f : α → Search β}, P α x → (∀ v, P β (f v)) → P β (x >>= f)
  -- a search looks only at what is remembered and entered again
  look : ∀ {α : Type} {f : Session → Search α},
    (∀ s t : Session, s.memo = t.memo → s.reentered = t.reentered → f s = f t) → (∀ s, P α (f s)) →
    P α (get >>= f)
  adjust : ∀ memo reentered statesProcessed,
    P PUnit (modify (Session.adjust memo reentered statesProcessed))
  record : ∀ change, P Unit (Request.record change)
  ask : ∀ call, P Bool (Session.ask q call)
  followSets : ∀ {rule : Nat} {r : Rule}, q.engine.automaton.rules[rule]? = some r →
    P FollowSets (Session.followSets q r)

namespace Request.Modular

variable {q : Request} {P : ∀ α : Type, Search α → Prop} {call : Nat → Nat → Search (List Nat)}

theorem takeSymbol (h : q.Modular P) (frames : List Frame) (index : Nat) (t : Transition)
    (target : Nat) (pending : List Visit) : P _ (q.takeSymbol frames index t target pending) := by
  unfold Request.takeSymbol
  split
  case h_1 => exact h.pure _
  case h_2 label _ =>
    split
    case isTrue => exact h.pure _
    case isFalse =>
      split
      case isTrue => exact h.bind (h.record _) fun _ => h.pure _
      case isFalse =>
        split
        case isTrue => exact h.pure _
        case isFalse => exact h.pure _

theorem take (h : q.Modular P) (called : ∀ rule place, P _ (call rule place)) (frames : List Frame)
    (index : Nat) (t : Transition) (pending : List Visit) :
    P _ (q.take call frames index t pending) := by
  cases t with
  | call rule follow => exact h.bind (called rule index) fun _ => h.pure _
  | predicate target rule number =>
    refine h.bind (h.ask _) fun answer => ?_
    cases answer with
    | false => exact h.pure _
    | true => exact h.pure _
  | wildcard target =>
    simp only [Request.take]
    split
    case isTrue => exact h.bind (h.record _) fun _ => h.pure _
    case isFalse => exact h.pure _
  | epsilon target =>
    simp only [Request.take]
    split
    case isTrue => exact h.bind (h.record _) fun _ => h.pure _
    case isFalse => exact h.pure _
  | atom target | set target | notSet target =>
    simp only [Request.take]
    exact h.takeSymbol frames index _ target pending

theorem takeAll (h : q.Modular P) (called : ∀ rule place, P _ (call rule place))
    (frames : List Frame) (index : Nat) (transitions : List Transition) (pending : List Visit) :
    P _ (q.takeAll call frames index transitions pending) := by
  induction transitions generalizing pending with
  | nil => exact h.pure _
  | cons t transitions ih => exact h.bind (h.take called frames index t pending) ih

theorem walkFrom (h : q.Modular P) (called : ∀ rule place, P _ (call rule place))
    (frames : List Frame) (expanded : Std.TreeSet Visit Visit.compare) (ends : List Nat)
    (pending : List Visit) : P _ (q.walkFrom call frames expanded ends pending) := by
  induction expanded, ends, pending using walkFrom.induct q with
  | case1 expanded ends pending next =>
    rw [Request.walkFrom]
    split
    case h_1 => exact h.pure _
    case h_2 next' => cases next.symm.trans next'
  | case2 expanded ends pending v rest next missing stopped onward =>
    rw [Request.walkFrom]
    split
    case h_1 next' => cases next.symm.trans next'
    case h_2 v' rest' next' =>
      cases next.symm.trans next'
      refine h.bind (h.adjust id id (· + 1)) fun _ => ?_
      split
      case h_1 => exact missing
      case h_2 state _ =>
        split
        case isTrue => exact stopped
        case isFalse => exact h.bind (h.takeAll called frames v.index state.transitions rest) onward

theorem grow (h : q.Modular P) {bound : Nat} {entry : RuleEntry}
    {round : Option (List Nat) → Search (List Nat)} (rounds : ∀ seed, P _ (round seed))
    (seed : Option (List Nat)) : P _ (grow bound entry round seed) := by
  induction seed using grow.induct bound with
  | case1 seed again =>
    rw [Request.grow]
    apply h.look
    · intro s t memo _
      rw [memo]
    · intro s
      refine h.bind (rounds seed) fun found => ?_
      apply h.look
      · intro s' t _ reentered
        rw [reentered]
      · intro s'
        split
        case isTrue =>
          dsimp only
          split
          case isTrue more =>
            exact h.bind (h.adjust (fun _ => s.memo) id id) fun _ => again found more
          case isFalse => exact h.pure _
        case isFalse => exact h.pure _

theorem enterRule (h : q.Modular P) (frames : List Frame) (rule index : Nat) :
    P _ (q.enterRule frames rule index) := by
  induction frames, rule, index using enterRule.induct q with
  | case1 frames rule index entry inner =>
    rw [Request.enterRule]
    apply h.look
    · intro s t memo _
      rw [memo]
    · intro s
      split
      case h_1 => exact h.pure _
      case h_2 =>
        split
        case h_1 => exact h.bind (h.adjust id (List.insert entry) id) fun _ => h.pure _
        case h_2 inactive =>
          split
          case h_1 => exact h.pure _
          case h_2 r known =>
            refine h.bind (h.followSets known) fun sets => ?_
            split
            case isTrue => exact h.bind (h.record _) fun _ => h.pure _
            case isFalse caret =>
              split
              case isTrue =>
                refine h.bind (h.grow (fun seed => ?_) none) fun ends => ?_
                · exact h.walkFrom
                    (fun callee place => inner inactive r known caret seed callee place) _ _ _ _
                · exact h.bind (h.adjust (List.cons (entry, ends)) (List.erase · entry) id)
                    fun _ => h.pure _
              case isFalse => exact h.pure _

end Request.Modular

/-! ## What is left in the cache -/

def Search.after (x : Search α) (s : Session) : Session :=
  match x s with
  | .ok _ s' => s'
  | .error _ s' => s'

section
variable {q : Request} {truth : Rule → FollowSets → Prop}

/-- From a cache with nothing but what `truth` allows, the search leaves such a cache. -/
def KeepsCache (q : Request) (truth : Rule → FollowSets → Prop) (α : Type) (x : Search α) : Prop :=
  ∀ s : Session, s.cache.Keeps q.engine.automaton q.engine.identity truth →
    (Search.after x s).cache.Keeps q.engine.automaton q.engine.identity truth

theorem keepsCache_followSets (hplace : q.engine.automaton.RulesInPlace) (finds : q.Finds truth)
    {rule : Nat} {r : Rule} (hr : q.engine.automaton.rules[rule]? = some r) :
    KeepsCache q truth FollowSets (Session.followSets q r) := by
  intro s h
  unfold Search.after Session.followSets
  rw [Search.get_bind]
  cases s.cache.find? (Session.keyOf q r) with
  | some sets => exact h
  | none =>
    dsimp only
    cases found :
        (FollowSets.ofRule q.engine.automaton q.engine.ignored q.evaluator s.asked r).result with
    | ok sets => exact Cache.Keeps.store h hplace hr (finds s.asked r sets found)
    | error failure => exact h

theorem Request.modular_keepsCache (hplace : q.engine.automaton.RulesInPlace)
    (finds : q.Finds truth) : q.Modular (KeepsCache q truth) where
  pure _ _ h := h
  bind {α β x f} first next s h := by
    have outcome := first s h
    unfold Search.after at outcome ⊢
    simp only [Bind.bind, EStateM.bind]
    cases ran : x s with
    | ok v s' =>
      rw [ran] at outcome
      exact next v s' outcome
    | error reason s' =>
      rw [ran] at outcome
      exact outcome
  look _ next s h := next s s h
  adjust _ _ _ _ h := h
  record change s h := by
    unfold Search.after
    rw [Request.record_apply]
    cases change s.candidates with
    | ok c => exact h
    | error fault => exact h
  ask call s h := by
    unfold Search.after Session.ask
    rw [Search.get_bind]
    cases askPredicate q.evaluator s.asked call with
    | mk answer asked =>
      cases answer with
      | ok holds => exact h
      | error failure => exact h
  followSets := keepsCache_followSets hplace finds

end

/-- Whatever its outcome, a request leaves nothing in the cache but what its surveys find. -/
theorem Engine.keeps_collect {engine : Engine} {truth : Rule → FollowSets → Prop} {cache : Cache}
    {evaluator : Option Evaluator} (hplace : engine.automaton.RulesInPlace)
    (finds : ∀ window, Request.Finds ⟨engine, window, evaluator⟩ truth)
    (kept : cache.Keeps engine.automaton engine.identity truth) (stream : TokenStream) (caret : Int)
    (context : RuleContext) :
    (engine.collect cache stream caret context evaluator).cache.Keeps engine.automaton
      engine.identity truth := by
  unfold Engine.collect
  cases engine.automaton.rule? context.rule with
  | none => exact kept
  | some r =>
    cases stream.window context.start caret with
    | error cause => exact kept
    | ok window =>
      let q : Request := ⟨engine, window.toArray, evaluator⟩
      have left := (Request.modular_keepsCache (q := q) hplace (finds window.toArray)).enterRule []
        context.rule.toNat 0 { cache := cache } kept
      unfold Search.after at left
      simp only [EStateM.run]
      cases ran : q.enterRule [] context.rule.toNat 0 { cache := cache } with
      | ok ends s =>
        rw [ran] at left
        exact left
      | error reason s =>
        rw [ran] at left
        exact left

end GrammarCompletion
