import GrammarCompletion.Grammar.Compile
import GrammarCompletion.Proofs.Automaton.LocalPath
import GrammarCompletion.Proofs.Grammar.Language

/-!
# Parts of compiled rules

Compiling an expression adds new states and only connects new states with each other. The part it
leaves has no transition at its exit, so that it can be linked to what follows, and the local paths
from its entry to its exit spell what the expression stands for.
-/

namespace GrammarCompletion

open Ebnf

/-- Rule names stand for what the calls of their rules read. -/
def Bindings.words (b : Bindings) (calls : Nat → List Symbol → Prop) (name : Bytes)
    (w : List Symbol) : Prop :=
  ∃ i, b.rules.idxOf? name = some i ∧ calls i w

def Bindings.Emits (b : Bindings) : Transition → Prop
  | .epsilon _ => True
  | .atom _ x => ∃ i, i < b.table.entries.length ∧ x = TokenTable.symbolAt i
  | .call rule _ => rule < b.rules.length
  | _ => False

namespace Compile

variable {b : Bindings} {a a' a'' : Automaton} {rule : Nat}

theorem bind_ok {x : Building α} {f : α → Building β} {r : β}
    (h : (x >>= f) a = .ok (r, a'')) : ∃ v a', x a = .ok (v, a') ∧ f v a' = .ok (r, a'') := by
  cases hx : x a with
  | error e => simp [bind, StateT.bind, Except.bind, hx] at h
  | ok found =>
    obtain ⟨v, a'⟩ := found
    exact ⟨v, a', rfl, by simpa [bind, StateT.bind, Except.bind, hx] using h⟩

theorem pure_ok {v r : α} (h : (pure v : Building α) a = .ok (r, a')) : r = v ∧ a' = a := by
  cases h
  exact ⟨rfl, rfl⟩

theorem newState_ok {kind : StateKind} {n : Nat} (h : newState rule kind a = .ok (n, a')) :
    n = a.states.size ∧ a' = a.addState rule kind := by
  cases h
  exact ⟨rfl, rfl⟩

theorem connect_ok {source : Nat} {t : Transition} {u : Unit}
    (h : connect source t a = .ok (u, a')) : a' = a.connect source t := by
  cases h
  rfl

def Below (b : Bindings) (top : Symbol) : Prop :=
  ∀ i, i < b.table.entries.length → TokenTable.symbolAt i ≤ top

/-- What is emitted does not widen the alphabet beyond the token types. -/
theorem maxSymbol_connect_le {source : Nat} {t : Transition} {top : Symbol} (below : Below b top)
    (emits : b.Emits t) (h : a.maxSymbol ≤ top) : (a.connect source t).maxSymbol ≤ top := by
  cases t with
  | epsilon | call => exact h
  | atom target x =>
    obtain ⟨i, hi, rfl⟩ := emits
    show (a.widen (TokenTable.symbolAt i)).maxSymbol ≤ top
    unfold Automaton.widen
    split
    · exact below i hi
    · exact h
  | set | notSet | wildcard | predicate => exact emits.elim

/-- New states of a rule that only lead to each other; what was there stays as it was. -/
structure Grown (b : Bindings) (a a' : Automaton) (rule : Nat) : Prop where
  assembled : a.Assembled → a'.Assembled
  greatest : ∀ top, Below b top → a.maxSymbol ≤ top → a'.maxSymbol ≤ top
  size_le : a.states.size ≤ a'.states.size
  rules : a'.rules = a.rules
  shape_old : ∀ n, n < a.states.size → a'.shape? n = a.shape? n
  shape_new : ∀ n, a.states.size ≤ n → n < a'.states.size →
    ∃ kind, a'.shape? n = some (kind, rule) ∧ kind ≠ .ruleStart ∧ kind ≠ .ruleStop
  old : ∀ n, n < a.states.size → a'.transitionsAt n = a.transitionsAt n
  inside : ∀ n, a.states.size ≤ n → ∀ t ∈ a'.transitionsAt n,
    a.states.size ≤ t.next ∧ t.next < a'.states.size
  emitted : ∀ n, a.states.size ≤ n → ∀ t ∈ a'.transitionsAt n, b.Emits t

namespace Grown

theorem refl (b : Bindings) (a : Automaton) (rule : Nat) : Grown b a a rule where
  assembled := id
  greatest _ _ := id
  size_le := Nat.le_refl _
  rules := rfl
  shape_old _ _ := rfl
  shape_new n h h' := by omega
  old _ _ := rfl
  inside n h t ht := by
    have := Automaton.lt_size_of_mem ht
    omega
  emitted n h t ht := by
    have := Automaton.lt_size_of_mem ht
    omega

theorem trans (h : Grown b a a' rule) (h' : Grown b a' a'' rule) : Grown b a a'' rule where
  assembled := h'.assembled ∘ h.assembled
  greatest top below := h'.greatest top below ∘ h.greatest top below
  size_le := Nat.le_trans h.size_le h'.size_le
  rules := h'.rules.trans h.rules
  shape_old n hn := (h'.shape_old n (Nat.lt_of_lt_of_le hn h.size_le)).trans (h.shape_old n hn)
  shape_new n hn hn' := by
    by_cases hlt : n < a'.states.size
    · rw [h'.shape_old n hlt]
      exact h.shape_new n hn hlt
    · exact h'.shape_new n (Nat.not_lt.mp hlt) hn'
  old n hn := (h'.old n (Nat.lt_of_lt_of_le hn h.size_le)).trans (h.old n hn)
  inside n hn t ht := by
    by_cases hlt : n < a'.states.size
    · rw [h'.old n hlt] at ht
      have := h.inside n hn t ht
      have := h'.size_le
      omega
    · have := h'.inside n (Nat.not_lt.mp hlt) t ht
      have := h.size_le
      omega
  emitted n hn t ht := by
    by_cases hlt : n < a'.states.size
    · rw [h'.old n hlt] at ht
      exact h.emitted n hn t ht
    · exact h'.emitted n (Nat.not_lt.mp hlt) t ht

theorem addState (h : Grown b a a' rule) (kind : StateKind)
    (hk : kind ≠ .ruleStart ∧ kind ≠ .ruleStop) :
    Grown b a (a'.addState rule kind) rule where
  assembled ha := (h.assembled ha).addState rule kind
  greatest := h.greatest
  size_le := by
    have := h.size_le
    simp only [Automaton.size_addState]
    omega
  rules := h.rules
  shape_old n hn := by
    have := h.size_le
    rw [Automaton.shape?_addState, if_neg (by omega)]
    exact h.shape_old n hn
  shape_new n hn hn' := by
    rw [Automaton.shape?_addState]
    split
    · exact ⟨kind, rfl, hk⟩
    · rw [Automaton.size_addState] at hn'
      exact h.shape_new n hn (by omega)
  old n hn := by
    rw [Automaton.transitionsAt_addState]
    exact h.old n hn
  inside n hn t ht := by
    rw [Automaton.transitionsAt_addState] at ht
    have := h.inside n hn t ht
    rw [Automaton.size_addState]
    omega
  emitted n hn t ht := by
    rw [Automaton.transitionsAt_addState] at ht
    exact h.emitted n hn t ht

theorem connect (h : Grown b a a' rule) {source : Nat} {t : Transition}
    (hs : a.states.size ≤ source ∧ source < a'.states.size)
    (hn : a.states.size ≤ t.next ∧ t.next < a'.states.size) (he : b.Emits t) :
    Grown b a (a'.connect source t) rule where
  assembled ha := (h.assembled ha).connect source t
  greatest top below ha := maxSymbol_connect_le below he (h.greatest top below ha)
  size_le := by simpa using h.size_le
  rules := by simpa using h.rules
  shape_old n hn := by simpa using h.shape_old n hn
  shape_new n hn hn' := by simpa using h.shape_new n hn (by simpa using hn')
  old n hn := by
    rw [Automaton.transitionsAt_connect hs.2, if_neg (by omega)]
    exact h.old n hn
  inside n hm x hx := by
    rw [Automaton.size_connect]
    rw [Automaton.transitionsAt_connect hs.2] at hx
    split at hx
    · rcases List.mem_append.mp hx with hx | hx
      · exact h.inside n hm x hx
      · cases List.mem_singleton.mp hx
        exact hn
    · exact h.inside n hm x hx
  emitted n hm x hx := by
    rw [Automaton.transitionsAt_connect hs.2] at hx
    split at hx
    · rcases List.mem_append.mp hx with hx | hx
      · exact h.emitted n hm x hx
      · cases List.mem_singleton.mp hx
        exact he
    · exact h.emitted n hm x hx

theorem link (h : Grown b a a' rule) {source target : Nat}
    (hs : a.states.size ≤ source ∧ source < a'.states.size)
    (ht : a.states.size ≤ target ∧ target < a'.states.size) :
    Grown b a (a'.connect source (.epsilon target)) rule :=
  h.connect hs ht trivial

end Grown

/-- A part between `a` and `a'` that can be linked, with the words that it spells. -/
structure Fragment (b : Bindings) (a a' : Automaton) (rule : Nat) (p : Part)
    (language : (Nat → List Symbol → Prop) → List Symbol → Prop) : Prop
    extends Grown b a a' rule where
  entry_new : a.states.size ≤ p.entry ∧ p.entry < a'.states.size
  exit_new : a.states.size ≤ p.exit ∧ p.exit < a'.states.size
  sink : a'.transitionsAt p.exit = []
  spells : ∀ calls w, LocalPath a'.transitionsAt calls p.entry w p.exit ↔ language calls w

/-- Words one after the other, each of the language. -/
inductive Repeated (language : List Symbol → Prop) : List Symbol → Prop
  | done : Repeated language []
  | again {u v : List Symbol} (head : language u) (tail : Repeated language v) :
      Repeated language (u ++ v)

namespace Fragment

variable {p q : Part} {language other : (Nat → List Symbol → Prop) → List Symbol → Prop}

def Inside (a a' : Automaton) (n : Nat) : Prop := a.states.size ≤ n ∧ n < a'.states.size

/-- In a larger automaton that goes on at `m` behind its exit, a part is passed as a whole. -/
theorem through (h : Fragment b a a' rule p language) {m : Nat}
    (more : ∀ n, ∀ t ∈ a'.transitionsAt n, t ∈ a''.transitionsAt n)
    (same : ∀ n, Inside a a' n → n ≠ p.exit → a''.transitionsAt n = a'.transitionsAt n)
    (link : a''.transitionsAt p.exit = [.epsilon m]) {calls : Nat → List Symbol → Prop} {k : Nat}
    (hk : ¬ Inside a a' k) {w : List Symbol} :
    LocalPath a''.transitionsAt calls p.entry w k ↔
      ∃ u v, w = u ++ v ∧ language calls u ∧ LocalPath a''.transitionsAt calls m v k := by
  constructor
  · intro path
    obtain ⟨u, v, rfl, hu, hv⟩ := LocalPath.escape (Inside a a')
      (fun n hn t ht => h.inside n hn.1 t ht) same path h.entry_new (fun hin => absurd hin hk)
    have hne : p.exit ≠ k := by
      rintro rfl
      exact hk h.exit_new
    exact ⟨u, v, rfl, (h.spells calls u).mp hu, hv.of_epsilon link hne⟩
  · rintro ⟨u, v, rfl, hu, hv⟩
    have first := ((h.spells calls u).mpr hu).mono more
    exact first.trans (.epsilon_cons (by simp [link]) hv)

theorem passage (b : Bindings) (a : Automaton) (rule : Nat) :
    Fragment b a (a.addState rule .basic) rule ⟨a.states.size, a.states.size⟩
      (fun _ w => w = []) where
  toGrown := (Grown.refl b a rule).addState .basic (by decide)
  entry_new := by simp
  exit_new := by simp
  sink := by simp [Automaton.transitionsAt_of_size_le]
  spells calls w := by
    constructor
    · exact fun path => (path.eq_of_sink (by simp [Automaton.transitionsAt_of_size_le])).2
    · rintro rfl
      exact .refl _

theorem between (b : Bindings) (a : Automaton) (rule : Nat) {t : Transition}
    (ht : t.next = a.states.size + 1) (he : b.Emits t) :
    Fragment b a
      (((a.addState rule .basic).addState rule .basic).connect a.states.size t) rule
      ⟨a.states.size, a.states.size + 1⟩ (fun calls w => t.Reads calls w) := by
  have out : ∀ n, (((a.addState rule .basic).addState rule .basic).connect
      a.states.size t).transitionsAt n = if n = a.states.size then [t] else a.transitionsAt n := by
    intro n
    rw [Automaton.transitionsAt_connect (by simp only [Automaton.size_addState]; omega)]
    split
    · subst n
      simp [Automaton.transitionsAt_of_size_le]
    · simp
  have two := ((Grown.refl b a rule).addState .basic (by decide)).addState .basic (by decide)
  have sink : ∀ n, a.states.size < n → (((a.addState rule .basic).addState rule .basic).connect
      a.states.size t).transitionsAt n = [] := by
    intro n hn
    rw [out, if_neg (by omega), Automaton.transitionsAt_of_size_le (by omega)]
  constructor
  case toGrown =>
    refine two.connect ?_ ?_ he <;> simp only [Automaton.size_addState] <;> omega
  case entry_new => simp only [Automaton.size_connect, Automaton.size_addState]; omega
  case exit_new => simp only [Automaton.size_connect, Automaton.size_addState]; omega
  case sink => exact sink _ (by simp)
  case spells =>
    intro calls w
    constructor
    · intro path
      obtain ⟨x, hx, u, v, rfl, hu, rest⟩ := path.first (by simp)
      rw [out, if_pos rfl, List.mem_singleton] at hx
      subst hx
      have := rest.eq_of_sink (sink _ (by omega))
      simpa [this.2] using hu
    · intro hu
      have hmem : t ∈ (((a.addState rule .basic).addState rule .basic).connect
          a.states.size t).transitionsAt a.states.size := by
        rw [out, if_pos rfl]
        exact List.mem_singleton.mpr rfl
      simpa [ht] using LocalPath.step hmem hu (.refl _)

theorem congr (h : Fragment b a a' rule p language)
    (same : ∀ calls w, language calls w ↔ other calls w) : Fragment b a a' rule p other where
  toGrown := h.toGrown
  entry_new := h.entry_new
  exit_new := h.exit_new
  sink := h.sink
  spells calls w := (h.spells calls w).trans (same calls w)

theorem append (h : Fragment b a a' rule p language) (h' : Fragment b a' a'' rule q other) :
    Fragment b a (a''.connect p.exit (.epsilon q.entry)) rule ⟨p.entry, q.exit⟩
      (fun calls w => ∃ u v, w = u ++ v ∧ language calls u ∧ other calls v) := by
  have le := h.size_le
  have le' := h'.size_le
  have hp := h.entry_new
  have hp' := h.exit_new
  have hq := h'.entry_new
  have hq' := h'.exit_new
  have out : ∀ n, (a''.connect p.exit (.epsilon q.entry)).transitionsAt n =
      if n = p.exit then [.epsilon q.entry] else a''.transitionsAt n := by
    intro n
    rw [Automaton.transitionsAt_connect (by omega)]
    split
    · subst n
      rw [h'.old _ hp'.2, h.sink, List.nil_append]
    · rfl
  have behind : ∀ calls w, LocalPath (a''.connect p.exit (.epsilon q.entry)).transitionsAt calls
      q.entry w q.exit ↔ other calls w := by
    intro calls w
    rw [← h'.spells calls w]
    constructor
    · refine fun path => LocalPath.restrict (Inside a' a'') ?_ ?_ path hq
      · exact fun n hn t ht => h'.inside n hn.1 t ht
      · intro n hn
        rw [out, if_neg (by have := hn.1; omega)]
    · refine fun path => path.mono ?_
      intro n t ht
      rw [out, if_neg]
      · exact ht
      · rintro rfl
        rw [h'.old _ hp'.2, h.sink] at ht
        cases ht
  constructor
  case toGrown =>
    exact (h.toGrown.trans h'.toGrown).link (by omega) (by omega)
  case entry_new => simp only [Automaton.size_connect]; omega
  case exit_new => simp only [Automaton.size_connect]; omega
  case sink => rw [out, if_neg (by dsimp only; omega), h'.sink]
  case spells =>
    intro calls w
    rw [h.through ?_ ?_ (by rw [out, if_pos rfl]) ?_]
    · simp only [behind]
    · intro n t ht
      rw [out, if_neg]
      · rw [h'.old n (Automaton.lt_size_of_mem ht)]
        exact ht
      · rintro rfl
        rw [h.sink] at ht
        cases ht
    · intro n hn hne
      rw [out, if_neg hne, h'.old n hn.2]
    · exact fun hin => absurd hin.2 (Nat.not_lt.mpr hq'.1)

theorem option (h : Fragment b a a' rule p language) :
    Fragment b a
      (((((a'.addState rule .blockStart).addState rule .blockEnd).connect a'.states.size
        (.epsilon p.entry)).connect a'.states.size (.epsilon (a'.states.size + 1))).connect p.exit
        (.epsilon (a'.states.size + 1))) rule ⟨a'.states.size, a'.states.size + 1⟩
      (fun calls w => w = [] ∨ language calls w) := by
  have le := h.size_le
  have hp := h.entry_new
  have hp' := h.exit_new
  generalize hc : ((((a'.addState rule .blockStart).addState rule .blockEnd).connect a'.states.size
    (.epsilon p.entry)).connect a'.states.size (.epsilon (a'.states.size + 1))).connect p.exit
    (.epsilon (a'.states.size + 1)) = c
  have size : c.states.size = a'.states.size + 2 := by simp [← hc]
  have out : ∀ n, c.transitionsAt n =
      if n = p.exit then [.epsilon (a'.states.size + 1)]
      else if n = a'.states.size then [.epsilon p.entry, .epsilon (a'.states.size + 1)]
      else a'.transitionsAt n := by
    intro n
    have beyond := Automaton.transitionsAt_of_size_le (Nat.le_refl a'.states.size)
    subst hc
    rw [Automaton.transitionsAt_connect, Automaton.transitionsAt_connect,
      Automaton.transitionsAt_connect]
    · simp only [Automaton.transitionsAt_addState]
      grind [h.sink]
    all_goals simp only [Automaton.size_connect, Automaton.size_addState]; omega
  have sink : c.transitionsAt (a'.states.size + 1) = [] := by
    rw [out, if_neg (by omega), if_neg (by omega), Automaton.transitionsAt_of_size_le (by omega)]
  have start : c.transitionsAt a'.states.size =
      [.epsilon p.entry, .epsilon (a'.states.size + 1)] := by
    rw [out, if_neg (by omega), if_pos rfl]
  have pass : ∀ calls w, LocalPath c.transitionsAt calls p.entry w (a'.states.size + 1) ↔
      language calls w := by
    intro calls w
    rw [h.through ?_ ?_ (by rw [out, if_pos rfl]) (fun hin => by have := hin.2; omega)]
    · constructor
      · rintro ⟨u, v, rfl, hu, hv⟩
        simpa [(hv.eq_of_sink sink).2] using hu
      · exact fun hw => ⟨w, [], by simp, hw, .refl _⟩
    · intro n t ht
      have := Automaton.lt_size_of_mem ht
      rw [out, if_neg, if_neg (by omega)]
      · exact ht
      · rintro rfl
        rw [h.sink] at ht
        cases ht
    · intro n hn hne
      rw [out, if_neg hne, if_neg (by have := hn.2; omega)]
  constructor
  case toGrown =>
    subst hc
    have two := (h.toGrown.addState .blockStart (by decide)).addState .blockEnd (by decide)
    refine ((two.link ?_ ?_).link ?_ ?_).link ?_ ?_
    all_goals simp only [Automaton.size_connect, Automaton.size_addState]; omega
  case entry_new => dsimp only; omega
  case exit_new => dsimp only; omega
  case sink => exact sink
  case spells =>
    intro calls w
    constructor
    · intro path
      obtain ⟨t, ht, u, v, rfl, hu, rest⟩ := path.first (by simp)
      simp only [start, List.mem_cons, List.not_mem_nil, or_false] at ht
      rcases ht with rfl | rfl <;> cases hu
      · exact .inr ((pass calls v).mp rest)
      · exact .inl (rest.eq_of_sink sink).2
    · rintro (rfl | hw)
      · exact .epsilon_cons (m := a'.states.size + 1) (by simp [start]) (.refl _)
      · exact .epsilon_cons (by simp [start]) ((pass calls w).mpr hw)

def loopStates (a : Automaton) (rule : Nat) : Automaton :=
  ((((a.addState rule .starLoopEntry).addState rule .starBlockStart).addState rule
    .blockEnd).addState rule .starLoopBack).addState rule .loopEnd

/-- A repetition around a body `p`, its states counted from `s` on. -/
def loopLinks (a : Automaton) (s : Nat) (p : Part) : Automaton :=
  (((((a.connect s (.epsilon (s + 1))).connect s (.epsilon (s + 4))).connect (s + 1)
    (.epsilon p.entry)).connect p.exit (.epsilon (s + 2))).connect (s + 2)
    (.epsilon (s + 3))).connect (s + 3) (.epsilon s)

theorem size_loopStates : (loopStates a rule).states.size = a.states.size + 5 := by
  simp [loopStates]

theorem size_loopLinks {s : Nat} : (loopLinks a s p).states.size = a.states.size := by
  simp [loopLinks]

theorem transitionsAt_loopLinks {s : Nat} (hs : s + 5 ≤ p.exit) (hp : p.exit < a.states.size)
    (new : ∀ n, s ≤ n → n < s + 5 → a.transitionsAt n = []) (sink : a.transitionsAt p.exit = [])
    (n : Nat) :
    (loopLinks a s p).transitionsAt n =
      if n = s then [.epsilon (s + 1), .epsilon (s + 4)]
      else if n = s + 1 then [.epsilon p.entry]
      else if n = s + 2 then [.epsilon (s + 3)]
      else if n = s + 3 then [.epsilon s]
      else if n = p.exit then [.epsilon (s + 2)]
      else a.transitionsAt n := by
  have h0 := new s (by omega) (by omega)
  have h1 := new (s + 1) (by omega) (by omega)
  have h2 := new (s + 2) (by omega) (by omega)
  have h3 := new (s + 3) (by omega) (by omega)
  unfold loopLinks
  rw [Automaton.transitionsAt_connect, Automaton.transitionsAt_connect,
    Automaton.transitionsAt_connect, Automaton.transitionsAt_connect,
    Automaton.transitionsAt_connect, Automaton.transitionsAt_connect]
  · grind
  all_goals
    try simp only [Automaton.size_connect]
    omega

theorem grown_loopStates : Grown b a (loopStates a rule) rule :=
  (((((Grown.refl b a rule).addState .starLoopEntry (by decide)).addState .starBlockStart
    (by decide)).addState .blockEnd (by decide)).addState .starLoopBack (by decide)).addState
    .loopEnd (by decide)

/-- A path that leaves a repetition. From each state of it the rest of the pass is read, and then
any number of passes. -/
theorem repeated_of_path (h : Fragment b a a' rule p language) {s : Nat}
    (hs : s + 5 ≤ a.states.size) {out : Nat → List Transition}
    (hout : ∀ n, out n =
      if n = s then [.epsilon (s + 1), .epsilon (s + 4)]
      else if n = s + 1 then [.epsilon p.entry]
      else if n = s + 2 then [.epsilon (s + 3)]
      else if n = s + 3 then [.epsilon s]
      else if n = p.exit then [.epsilon (s + 2)]
      else a'.transitionsAt n)
    (sink : out (s + 4) = []) {calls : Nat → List Symbol → Prop} {n k : Nat} {w : List Symbol}
    (path : LocalPath out calls n w k) (hk : k = s + 4) :
    (n = s ∨ n = s + 2 ∨ n = s + 3 → Repeated (language calls) w) ∧
    (n = s + 1 → ∃ u v, w = u ++ v ∧ language calls u ∧ Repeated (language calls) v) ∧
    (Inside a a' n → ∃ u v, w = u ++ v ∧ LocalPath a'.transitionsAt calls n u p.exit ∧
      Repeated (language calls) v) := by
  have hp := h.entry_new
  have hp' := h.exit_new
  induction path with
  | refl n => exact ⟨by omega, by omega, fun hn => by have := hn.1; omega⟩
  | @step n k t u v ht hu rest ih =>
    obtain ⟨outer, front, inner⟩ := ih hk
    rw [hout] at ht
    refine ⟨?_, ?_, ?_⟩
    · rintro (rfl | rfl | rfl)
      · simp only [if_pos, List.mem_cons, List.not_mem_nil, or_false] at ht
        rcases ht with rfl | rfl <;> cases hu
        · obtain ⟨x, y, rfl, hx, hy⟩ := front rfl
          rw [List.nil_append]
          exact .again hx hy
        · rw [(rest.eq_of_sink sink).2]
          exact .done
      · simp only [show s + 2 ≠ s by omega, show s + 2 ≠ s + 1 by omega, if_neg, if_pos,
          List.mem_singleton, not_false_eq_true] at ht
        subst ht
        cases hu
        exact outer (.inr (.inr rfl))
      · simp only [show s + 3 ≠ s by omega, show s + 3 ≠ s + 1 by omega,
          show s + 3 ≠ s + 2 by omega, if_neg, if_pos, List.mem_singleton,
          not_false_eq_true] at ht
        subst ht
        cases hu
        exact outer (.inl rfl)
    · rintro rfl
      simp only [show s + 1 ≠ s by omega, if_neg, if_pos, List.mem_singleton,
        not_false_eq_true] at ht
      subst ht
      cases hu
      obtain ⟨x, y, rfl, hx, hy⟩ := inner hp
      exact ⟨x, y, rfl, (h.spells calls x).mp hx, hy⟩
    · intro hn
      have := hn.1
      rw [if_neg (by omega), if_neg (by omega), if_neg (by omega), if_neg (by omega)] at ht
      split at ht
      · subst n
        rw [List.mem_singleton] at ht
        subst ht
        cases hu
        exact ⟨[], v, rfl, .refl _, outer (.inr (.inl rfl))⟩
      · obtain ⟨x, y, rfl, hx, hy⟩ := inner (h.inside n hn.1 t ht)
        exact ⟨u ++ x, y, (List.append_assoc ..).symm, .step ht hu hx, hy⟩

theorem repetition (h : Fragment b (loopStates a rule) a' rule p language) :
    Fragment b a (loopLinks a' a.states.size p) rule ⟨a.states.size, a.states.size + 4⟩
      (fun calls => Repeated (language calls)) := by
  have le : a.states.size + 5 ≤ a'.states.size := size_loopStates (a := a) ▸ h.size_le
  have hp : a.states.size + 5 ≤ p.entry ∧ _ := size_loopStates (a := a) ▸ h.entry_new
  have hp' : a.states.size + 5 ≤ p.exit ∧ _ := size_loopStates (a := a) ▸ h.exit_new
  have new : ∀ n, a.states.size ≤ n → n < a.states.size + 5 → a'.transitionsAt n = [] := by
    intro n hn hlt
    rw [h.old n (by rw [size_loopStates]; exact hlt)]
    simp [loopStates, Automaton.transitionsAt_of_size_le hn]
  have out := transitionsAt_loopLinks hp'.1 hp'.2 new h.sink
  have sink : (loopLinks a' a.states.size p).transitionsAt (a.states.size + 4) = [] := by
    rw [out]
    grind
  have more : ∀ n, ∀ t ∈ a'.transitionsAt n,
      t ∈ (loopLinks a' a.states.size p).transitionsAt n := by
    intro n t ht
    rw [out]
    grind [h.sink]
  constructor
  case toGrown =>
    refine ((((((grown_loopStates.trans h.toGrown).link ?_ ?_).link ?_ ?_).link ?_ ?_).link
      ?_ ?_).link ?_ ?_).link ?_ ?_
    all_goals
      try simp only [Automaton.size_connect]
      omega
  case entry_new => simp only [size_loopLinks]; omega
  case exit_new => simp only [size_loopLinks]; omega
  case sink => exact sink
  case spells =>
    intro calls w
    constructor
    · intro path
      exact (h.repeated_of_path (Nat.le_of_eq size_loopStates.symm) out sink path rfl).1 (.inl rfl)
    · intro hw
      induction hw with
      | done => exact .epsilon_cons (m := a.states.size + 4) (by simp [out]) (.refl _)
      | again hu _ ih =>
        have body := ((h.spells calls _).mpr hu).mono more
        refine .epsilon_cons (m := a.states.size + 1) (by simp [out]) ?_
        refine .epsilon_cons (m := p.entry) (by simp [out]) (body.trans ?_)
        refine .epsilon_cons (m := a.states.size + 2) (by rw [out]; grind) ?_
        refine .epsilon_cons (m := a.states.size + 3) (by simp [out]) ?_
        exact .epsilon_cons (m := a.states.size) (by simp [out]) ih

end Fragment

/-- Parts side by side from `start` to `stop`; nothing leads back to `start`. -/
structure Choice (b : Bindings) (a a' : Automaton) (rule start stop : Nat)
    (language : (Nat → List Symbol → Prop) → List Symbol → Prop) : Prop
    extends Fragment b a a' rule ⟨start, stop⟩ language where
  distinct : start ≠ stop
  no_return : ∀ n, ∀ t ∈ a'.transitionsAt n, a.states.size ≤ n → t.next ≠ start

namespace Choice

variable {start stop : Nat} {p : Part}
  {language other : (Nat → List Symbol → Prop) → List Symbol → Prop}

theorem congr (h : Choice b a a' rule start stop language)
    (same : ∀ calls w, language calls w ↔ other calls w) :
    Choice b a a' rule start stop other where
  toFragment := h.toFragment.congr same
  distinct := h.distinct
  no_return := h.no_return

theorem none (b : Bindings) (a : Automaton) (rule : Nat) :
    Choice b a ((a.addState rule .blockStart).addState rule .blockEnd) rule a.states.size
      (a.states.size + 1) (fun _ _ => False) := by
  have empty : ∀ n, a.states.size ≤ n →
      ((a.addState rule .blockStart).addState rule .blockEnd).transitionsAt n = [] := by
    intro n hn
    simp [Automaton.transitionsAt_of_size_le hn]
  constructor
  case distinct => omega
  case no_return =>
    intro n t ht hn
    rw [empty n hn] at ht
    cases ht
  case toFragment =>
    constructor
    case toGrown =>
      exact ((Grown.refl b a rule).addState .blockStart (by decide)).addState .blockEnd (by decide)
    case entry_new => simp only [Automaton.size_addState]; omega
    case exit_new => simp only [Automaton.size_addState]; omega
    case sink => exact empty _ (by simp)
    case spells =>
      intro calls w
      refine ⟨fun path => ?_, False.elim⟩
      have := (path.eq_of_sink (empty _ (Nat.le_refl _))).1
      simp at this

theorem add (h : Choice b a a' rule start stop language) (h' : Fragment b a' a'' rule p other) :
    Choice b a ((a''.connect start (.epsilon p.entry)).connect p.exit (.epsilon stop)) rule start
      stop (fun calls w => language calls w ∨ other calls w) := by
  have le := h.size_le
  have le' := h'.size_le
  have hs : a.states.size ≤ start ∧ start < a'.states.size := h.entry_new
  have ht : a.states.size ≤ stop ∧ stop < a'.states.size := h.exit_new
  have hp := h'.entry_new
  have hp' := h'.exit_new
  have hne := h.distinct
  generalize hc : (a''.connect start (.epsilon p.entry)).connect p.exit (.epsilon stop) = c
  have out : ∀ n, c.transitionsAt n =
      if n = start then a'.transitionsAt start ++ [.epsilon p.entry]
      else if n = p.exit then [.epsilon stop]
      else if n < a'.states.size then a'.transitionsAt n
      else a''.transitionsAt n := by
    intro n
    have at_start := h'.old start hs.2
    have at_exit := h'.sink
    have old := h'.old n
    subst hc
    rw [Automaton.transitionsAt_connect, Automaton.transitionsAt_connect]
    · grind
    all_goals
      try simp only [Automaton.size_connect]
      omega
  have sink : c.transitionsAt stop = [] := by
    rw [out, if_neg hne.symm, if_neg (by omega), if_pos ht.2]
    exact h.sink
  have no_return : ∀ n, ∀ t ∈ c.transitionsAt n, a.states.size ≤ n → t.next ≠ start := by
    intro n t hmem hn
    have before := h.no_return n t
    have inside := h'.inside n
    rw [out] at hmem
    grind [Transition.next]
  -- The parts that were there before are never left, except by `start`.
  have earlier : ∀ calls n w, n < a'.states.size ∧ n ≠ start ∧ a.states.size ≤ n →
      LocalPath c.transitionsAt calls n w stop → LocalPath a'.transitionsAt calls n w stop := by
    intro calls n w hn path
    refine LocalPath.restrict (fun n => n < a'.states.size ∧ n ≠ start ∧ a.states.size ≤ n)
      ?_ ?_ path hn
    · intro n hn t hmem
      have := h.inside n hn.2.2 t hmem
      exact ⟨this.2, h.no_return n t hmem hn.2.2, this.1⟩
    · intro n hn
      rw [out, if_neg hn.2.1, if_neg (by omega), if_pos hn.1]
  have latest : ∀ calls w, LocalPath c.transitionsAt calls p.entry w stop ↔ other calls w := by
    intro calls w
    rw [h'.through (m := stop) ?_ ?_ ?_ (fun hin => by have := hin.1; omega)]
    · constructor
      · rintro ⟨u, v, rfl, hu, hv⟩
        simpa [(hv.eq_of_sink sink).2] using hu
      · exact fun hw => ⟨w, [], by simp, hw, .refl _⟩
    · intro n t hmem
      have := h'.old n
      rw [out]
      grind [h'.sink]
    · intro n hn hne'
      have := hn.1
      rw [out, if_neg (by omega), if_neg hne', if_neg (by omega)]
    · rw [out, if_neg (by omega), if_pos rfl]
  have spells : ∀ calls w, LocalPath c.transitionsAt calls start w stop ↔
      language calls w ∨ other calls w := by
    intro calls w
    constructor
    · intro path
      obtain ⟨t, hmem, u, v, rfl, hu, rest⟩ := path.first hne
      rw [out, if_pos rfl, List.mem_append, List.mem_singleton] at hmem
      rcases hmem with hmem | rfl
      · have hn := h.inside start hs.1 t hmem
        have hr := h.no_return start t hmem hs.1
        exact .inl ((h.spells calls _).mp (.step hmem hu (earlier _ _ _ ⟨hn.2, hr, hn.1⟩ rest)))
      · cases hu
        exact .inr ((latest calls v).mp rest)
    · rintro (hw | hw)
      · refine ((h.spells calls w).mpr hw).mono ?_
        intro n t hmem
        have := Automaton.lt_size_of_mem hmem
        rw [out]
        grind
      · exact .epsilon_cons (by simp [out]) ((latest calls w).mpr hw)
  have grown : Grown b a c rule := by
    subst hc
    refine ((h.toGrown.trans h'.toGrown).link ?_ ?_).link ?_ ?_
    all_goals
      try simp only [Automaton.size_connect]
      omega
  have size : c.states.size = a''.states.size := by simp [← hc]
  exact { grown with
    entry_new := ⟨hs.1, by dsimp only; omega⟩
    exit_new := ⟨ht.1, by dsimp only; omega⟩
    sink, spells, no_return
    distinct := hne }

end Choice

end Compile

end GrammarCompletion
