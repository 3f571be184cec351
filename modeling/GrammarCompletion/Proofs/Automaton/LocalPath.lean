import GrammarCompletion.Proofs.Automaton.Build

/-!
# Paths inside a rule

A local path goes along the transitions of one rule and takes what a call reads from a given
language of the called rule. It only depends on the transitions, so that a part of an automaton can
be described before the rest is there. A part that can only be left by its exit is passed through
as a whole (`LocalPath.escape`), and a closed part is never left (`LocalPath.restrict`).
-/

namespace GrammarCompletion

inductive Transition.Reads (calls : Nat → List Symbol → Prop) : Transition → List Symbol → Prop
  | epsilon (target : Nat) : Reads calls (.epsilon target) []
  | atom (target : Nat) (x : Symbol) : Reads calls (.atom target x) [x]
  | call {rule : Nat} {u : List Symbol} (follow : Nat) (h : calls rule u) :
      Reads calls (.call rule follow) u

/-- A path along transitions `out`, on which a call reads what `calls` says. -/
inductive LocalPath (out : Nat → List Transition) (calls : Nat → List Symbol → Prop) :
    Nat → List Symbol → Nat → Prop
  | refl (n : Nat) : LocalPath out calls n [] n
  | step {n k : Nat} {t : Transition} {u v : List Symbol} (h : t ∈ out n) (hu : t.Reads calls u)
      (rest : LocalPath out calls t.next v k) : LocalPath out calls n (u ++ v) k

namespace LocalPath

variable {out out' : Nat → List Transition} {calls calls' : Nat → List Symbol → Prop}
  {n m k : Nat} {u v w : List Symbol}

theorem trans (h : LocalPath out calls n u m) (h' : LocalPath out calls m v k) :
    LocalPath out calls n (u ++ v) k := by
  induction h with
  | refl n => exact h'
  | step ht hu _ ih =>
    rw [List.append_assoc]
    exact .step ht hu (ih h')

theorem mono (sub : ∀ n, ∀ t ∈ out n, t ∈ out' n) (h : LocalPath out calls n w k) :
    LocalPath out' calls n w k := by
  induction h with
  | refl n => exact .refl n
  | step ht hu _ ih => exact .step (sub _ _ ht) hu ih

theorem epsilon_cons (h : .epsilon m ∈ out n) (rest : LocalPath out calls m w k) :
    LocalPath out calls n w k :=
  .step h (.epsilon m) rest

theorem eq_of_sink (hs : out n = []) (h : LocalPath out calls n w k) : k = n ∧ w = [] := by
  cases h with
  | refl => exact ⟨rfl, rfl⟩
  | step ht => simp [hs] at ht

theorem first (hne : n ≠ k) (h : LocalPath out calls n w k) :
    ∃ t ∈ out n, ∃ u v, w = u ++ v ∧ t.Reads calls u ∧ LocalPath out calls t.next v k := by
  cases h with
  | refl => exact absurd rfl hne
  | step ht hu rest => exact ⟨_, ht, _, _, rfl, hu, rest⟩

theorem of_epsilon (hs : out n = [.epsilon m]) (hne : n ≠ k) (h : LocalPath out calls n w k) :
    LocalPath out calls m w k := by
  obtain ⟨t, ht, u, v, rfl, hu, rest⟩ := h.first hne
  rw [hs, List.mem_singleton] at ht
  subst ht
  cases hu
  exact rest

/-- A path that leaves a part whose transitions all stay inside, except for new ones at its exit,
passes its exit, and up to there only old transitions are taken. -/
theorem escape (inside : Nat → Prop) {exit : Nat}
    (closed : ∀ n, inside n → ∀ t ∈ out n, inside t.next)
    (same : ∀ n, inside n → n ≠ exit → out' n = out n)
    (h : LocalPath out' calls n w k) (hn : inside n) (hk : inside k → k = exit) :
    ∃ u v, w = u ++ v ∧ LocalPath out calls n u exit ∧ LocalPath out' calls exit v k := by
  induction h with
  | refl n =>
    cases hk hn
    exact ⟨[], [], rfl, .refl _, .refl _⟩
  | @step n k t u v ht hu rest ih =>
    by_cases he : n = exit
    · subst he
      exact ⟨[], u ++ v, rfl, .refl _, .step ht hu rest⟩
    · rw [same n hn he] at ht
      obtain ⟨x, y, rfl, hx, hy⟩ := ih (closed n hn t ht) hk
      exact ⟨u ++ x, y, (List.append_assoc ..).symm, .step ht hu hx, hy⟩

/-- A path that starts in a closed part with old transitions only is an old path. -/
theorem restrict (inside : Nat → Prop) (closed : ∀ n, inside n → ∀ t ∈ out n, inside t.next)
    (same : ∀ n, inside n → out' n = out n) (h : LocalPath out' calls n w k) (hn : inside n) :
    LocalPath out calls n w k := by
  induction h with
  | refl n => exact .refl n
  | @step n k t u v ht hu rest ih =>
    rw [same n hn] at ht
    exact .step ht hu (ih (closed n hn t ht))

end LocalPath

namespace Automaton

variable {a : Automaton}

def IsPlain : Transition → Prop
  | .epsilon _ | .atom _ _ | .call _ _ => True
  | _ => False

theorem eq_atom_of_symbolLabel {t : Transition} {label : IntervalSet} (plain : IsPlain t)
    (hl : a.symbolLabel t = some label) :
    ∃ target x, t = .atom target x ∧ label = IntervalSet.singleton x := by
  cases t with
  | atom target x =>
    cases hl
    exact ⟨target, x, rfl, rfl⟩
  | epsilon | call => cases hl
  | set | notSet | wildcard | predicate => exact plain.elim

theorem atom_of_offers (plain : ∀ n, ∀ t ∈ a.transitionsAt n, IsPlain t) {n : Nat} {x : Symbol}
    (hx : a.Offers n x) : ∃ target, .atom target x ∈ a.transitionsAt n := by
  obtain ⟨t, ht, label, hl, hx⟩ := hx
  obtain ⟨target, y, rfl, rfl⟩ := eq_atom_of_symbolLabel (plain n t ht) hl
  cases IntervalSet.mem_singleton.mp hx
  exact ⟨target, ht⟩

theorem offers_of_move (plain : ∀ n, ∀ t ∈ a.transitionsAt n, IsPlain t)
    {holds : PredicateCall → Prop} {n m : Nat} {x : Symbol} (h : Move a holds n [x] m) :
    a.Offers n x := by
  cases h with
  | wildcard ht => exact (plain n _ ht).elim
  | symbol ht _ hl hx => exact ⟨_, ht, _, hl, hx⟩

theorem atom_of_move (plain : ∀ n, ∀ t ∈ a.transitionsAt n, IsPlain t)
    {holds : PredicateCall → Prop} {n m : Nat} {x : Symbol} (h : Move a holds n [x] m) :
    .atom m x ∈ a.transitionsAt n := by
  cases h with
  | wildcard ht => exact (plain n _ ht).elim
  | symbol ht htarget hl hx =>
    obtain ⟨target, y, rfl, rfl⟩ := eq_atom_of_symbolLabel (plain n _ ht) hl
    cases htarget
    cases IntervalSet.mem_singleton.mp hx
    exact ht

/-- What the paths through a rule read. -/
def Spelled (a : Automaton) (rule : Nat) (w : List Symbol) : Prop :=
  ∃ r stop, a.rules[rule]? = some r ∧ a.IsStop stop ∧ Path a (fun _ => True) r.start w stop

/-- With the languages of the rules themselves, local paths are paths. -/
theorem path_of_localPath {n k : Nat} {w : List Symbol}
    (h : LocalPath a.transitionsAt a.Spelled n w k) : Path a (fun _ => True) n w k := by
  induction h with
  | refl n => exact .refl n
  | @step n k t u v ht hu rest ih =>
    cases hu with
    | epsilon target => exact .move (.epsilon ht) ih
    | atom target x => exact .move (.symbol ht rfl rfl (IntervalSet.mem_singleton.mpr rfl)) ih
    | call follow hc =>
      obtain ⟨r, stop, hr, hstop, body⟩ := hc
      exact .call ht hr body hstop ih

/-- Paths are local paths with any languages that hold what the rules read. -/
theorem localPath_of_path (plain : ∀ n, ∀ t ∈ a.transitionsAt n, IsPlain t)
    {calls : Nat → List Symbol → Prop}
    (closed : ∀ (rule : Nat) (r : Rule) (stop : Nat) (w : List Symbol), a.rules[rule]? = some r →
      a.IsStop stop → LocalPath a.transitionsAt calls r.start w stop → calls rule w)
    {n k : Nat} {w : List Symbol} (h : Path a (fun _ => True) n w k) :
    LocalPath a.transitionsAt calls n w k := by
  induction h with
  | refl n => exact .refl n
  | move hm _ ih =>
    cases hm with
    | epsilon ht => exact .step ht (.epsilon _) ih
    | predicate ht _ => exact (plain _ _ ht).elim
    | wildcard ht _ => exact (plain _ _ ht).elim
    | @symbol _ t label x ht hto hl hx =>
      cases t with
      | atom target y =>
        cases hto
        cases hl
        cases IntervalSet.mem_singleton.mp hx
        exact .step ht (.atom _ x) ih
      | set | notSet => exact (plain _ _ ht).elim
      | epsilon | wildcard | call | predicate => cases hto
  | call ht hr _ hstop _ body rest => exact .step ht (.call _ (closed _ _ _ _ hr hstop body)) rest

end Automaton

end GrammarCompletion
