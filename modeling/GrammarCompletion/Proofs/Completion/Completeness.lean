import GrammarCompletion.Proofs.Automaton.LocalPath
import GrammarCompletion.Proofs.Completion.Combined
import GrammarCompletion.Proofs.Completion.Soundness
import Mathlib.Data.List.Sort

/-!
# Nothing is missed

What a session knows of a rule it has entered is closed: from the start of the rule on, every
transition has been followed as far as the tokens allow, and at the caret its label is recorded.
A call counts as followed where the follow state was visited at every end that the session knows
for the called rule.

A rule is walked once for each position, below the calls by which it was entered first. What is
recorded in it is recorded below these calls; `reach` is what is known of them.

While a rule is being walked, the ends of an inner entry of the same rule are those of its seed, so
what is known rests on the frames. It stands on its own as soon as the seed has all ends of the
rule, which is when the seed stops growing.
-/

namespace GrammarCompletion

open Automaton

/-! ## Ascending ends -/

theorem ascending_insertAscending {x : Nat} {ends : List Nat} (h : ends.Pairwise (· < ·)) :
    (insertAscending x ends).Pairwise (· < ·) := by
  fun_induction insertAscending x ends with
  | case1 => exact List.pairwise_singleton _ _
  | case2 y ends hlt =>
    rw [List.pairwise_cons] at h ⊢
    refine ⟨fun z hz => ?_, List.pairwise_cons.mpr h⟩
    rcases List.mem_cons.mp hz with rfl | hz
    · exact hlt
    · exact Nat.lt_trans hlt (h.1 z hz)
  | case3 y ends _ hlt ih =>
    rw [List.pairwise_cons] at h ⊢
    refine ⟨fun z hz => ?_, ih h.2⟩
    rcases mem_insertAscending.mp hz with rfl | hz
    · exact hlt
    · exact h.1 z hz
  | case4 => exact h

theorem ascending_unionEnds {ends more : List Nat} (h : ends.Pairwise (· < ·)) :
    (unionEnds ends more).Pairwise (· < ·) := by
  unfold unionEnds
  induction more generalizing ends with
  | nil => exact h
  | cons x more ih => exact ih (ascending_insertAscending h)

/-- A list of ends of a window with `bound` tokens. -/
structure Ends (bound : Nat) (ends : List Nat) : Prop where
  ascending : ends.Pairwise (· < ·)
  bounded : ∀ stop ∈ ends, stop < bound

namespace Ends

variable {bound : Nat} {ends more : List Nat}

theorem nil : Ends bound [] := ⟨.nil, by simp⟩

theorem insert (h : Ends bound ends) {x : Nat} (hx : x < bound) :
    Ends bound (insertAscending x ends) := by
  refine ⟨ascending_insertAscending h.ascending, fun stop hstop => ?_⟩
  rcases mem_insertAscending.mp hstop with rfl | hstop
  · exact hx
  · exact h.bounded stop hstop

theorem union (h : Ends bound ends) (h' : Ends bound more) : Ends bound (unionEnds ends more) :=
  ⟨ascending_unionEnds h.ascending, fun stop hstop =>
    (mem_unionEnds.mp hstop).elim (h.bounded stop) (h'.bounded stop)⟩

theorem nodup (h : Ends bound ends) : ends.Nodup := h.ascending.imp Nat.ne_of_lt

theorem length_le (h : Ends bound ends) : ends.length ≤ bound := by
  have inside : ends ⊆ List.range bound := fun stop hstop =>
    List.mem_range.mpr (h.bounded stop hstop)
  simpa using (List.subperm_of_subset h.nodup inside).length_le

theorem eq_of_subset (h : Ends bound ends) (h' : Ends bound more) (sub : ends ⊆ more)
    (length : more.length ≤ ends.length) : ends = more := by
  have sublist : ends.Sublist more :=
    List.sublist_of_subperm_of_pairwise (List.subperm_of_subset h.nodup sub) h.ascending h'.ascending
  exact sublist.eq_of_length_le length

end Ends

theorem Request.eq_seed_of_outgrows {bound : Nat} {seed : Option (List Nat)} {found : List Nat}
    (hseed : Ends bound (seed.getD [])) (hfound : Ends bound found)
    (h : Request.outgrows bound seed (unionEnds found (seed.getD [])) = false) :
    unionEnds found (seed.getD []) = seed.getD [] := by
  have both := hfound.union hseed
  have small := both.length_le
  cases seed with
  | none =>
    rw [Request.outgrows, decide_eq_false_iff_not] at h
    exact absurd small h
  | some old =>
    simp only [Request.outgrows, Bool.and_eq_false_iff, decide_eq_false_iff_not] at h
    have length : (unionEnds found old).length ≤ old.length := by
      have := h.resolve_right (not_not.mpr small)
      simpa using this
    exact (hseed.eq_of_subset both (fun stop hstop => mem_unionEnds.mpr (.inr hstop)) length).symm

theorem Automaton.listableLabels_of_plain {a : Automaton}
    (plain : ∀ n, ∀ t ∈ a.transitionsAt n, IsPlain t) : a.ListableLabels := by
  intro n t ht label hl
  obtain ⟨target, x, -, rfl⟩ := eq_atom_of_symbolLabel (plain n t ht) hl
  exact IntervalSet.listable_singleton x

namespace Request

variable {q : Request} {frames : List Frame} {s s' : Session} {e : RuleEntry} {ends : List Nat}

structure Thorough (q : Request) : Prop where
  wellFormed : q.engine.automaton.WellFormed
  plain : ∀ n, ∀ t ∈ q.engine.automaton.transitionsAt n, IsPlain t
  bounds : ∀ n x, q.engine.automaton.Offers n x → Symbol.firstUser ≤ x ∧ x < Int64.maxValue
  tame : ∀ rule, q.engine.automaton.Nullable (fun _ => True) rule →
    ¬ q.engine.automaton.Reenters (fun _ => True) rule
  unfailing : Unfailing q.evaluator

structure Exhaustive (q : Request) : Prop extends Thorough q where
  noPreferred : q.engine.preferred = []

theorem Thorough.regular (hq : q.Thorough) : q.Regular (fun _ => True) where
  inPlace := hq.wellFormed.inPlace
  stays := hq.wellFormed.stays
  positive := by
    intro n t ht
    have plain := hq.plain n t ht
    cases t with
    | atom target x =>
      exact (hq.bounds n x ⟨_, ht, _, rfl, IntervalSet.mem_singleton.mpr rfl⟩).1
    | epsilon | call => trivial
    | set | notSet | wildcard | predicate => exact plain.elim
  confirms := Survey.confirms_true _

theorem Thorough.ne_nothing (hq : q.Thorough) {n target : Nat} {x : Symbol}
    (ht : .atom target x ∈ q.engine.automaton.transitionsAt n) : x ≠ Symbol.nothing := by
  rintro rfl
  have bound := (hq.bounds n _ ⟨_, ht, _, rfl, IntervalSet.mem_singleton.mpr rfl⟩).1
  exact absurd bound (by decide)

/-! ## What a session knows -/

def Recorded (q : Request) (s : Session) (x : Symbol) : Prop :=
  x ≠ Symbol.nothing → x ∉ q.engine.ignored → x ∈ s.candidates.tokens

/-- A token type of a rule that was entered is accounted for, below calls by which the entry is
reached and with tokens that are forced behind it. -/
def Noted (q : Request) (reach : List Nat → Visit → Prop) (c : Candidates) (e : RuleEntry)
    (target : Nat) (x : Symbol) : Prop :=
  ∃ rules following, c.Accounts q.engine rules x following ∧
    (∀ r, q.engine.automaton.rules[e.rule]? = some r → reach rules ⟨r.start, e.index⟩) ∧
    (following = [] ∨ ∃ ignored, following = forcedFrom q.engine.automaton ignored [] target)

/-- Why the ends of an entered rule are given: they are remembered, or are the seed of a frame that
is noted as entered again, or there is no such rule, or the rule is entered at the caret, where all
it starts with is recorded, or it cannot match the next token. -/
inductive Answered (q : Request) (frames : List Frame) (s : Session) (e : RuleEntry)
    (ends : List Nat) (reach : List Nat → Visit → Prop := fun _ _ => True) : Prop
  | known (h : s.memo.lookup e = some ends)
  | again {frame : Frame} (h : frames.find? (fun frame => frame.entry = e) = some frame)
      (hr : e ∈ s.reentered) (hends : ends = frame.seed.getD [])
  | missing (h : q.engine.automaton.rules[e.rule]? = none)
  | caret {r : Rule} (hr : q.engine.automaton.rules[e.rule]? = some r)
      (hc : q.atCaret e.index = true)
      (hfirst : ∀ (rule : Nat) (r' : Rule) (stack : List Nat) (n target : Nat) (x : Symbol),
        q.engine.automaton.rules[rule]? = some r' →
        Run q.engine.automaton (fun _ => True) ⟨r.start, []⟩ [] ⟨r'.start, stack⟩ →
        Path q.engine.automaton (fun _ => True) r'.start [] n →
        .atom target x ∈ q.engine.automaton.transitionsAt n →
        q.Noted reach s.candidates ⟨rule, e.index⟩ target x)
      (hend : Path q.engine.automaton (fun _ => True) r.start [] r.stop → e.index ∈ ends)
  | pruned {r : Rule} (hr : q.engine.automaton.rules[e.rule]? = some r)
      (hc : q.atCaret e.index = false)
      (hfirst : ∀ n stack, Run q.engine.automaton (fun _ => True) ⟨r.start, []⟩ [] ⟨n, stack⟩ →
        ¬ q.engine.automaton.Offers n (q.symbolAt e.index))
      (hend : ¬ Path q.engine.automaton (fun _ => True) r.start [] r.stop)

/-- A transition of a state visited from an entry has been followed to visits in `V`. -/
def Followed (q : Request) (frames : List Frame) (s : Session) (e : RuleEntry) (V : Visit → Prop)
    (reach : List Nat → Visit → Prop) (v : Visit) : Transition → Prop
  | .epsilon target => V ⟨target, v.index⟩
  | .atom target x =>
    if q.atCaret v.index then q.Noted reach s.candidates e target x
    else q.symbolAt v.index = x → V ⟨target, v.index + 1⟩
  | .call rule follow => ∃ ends, q.Answered frames s ⟨rule, v.index⟩ ends reach ∧
      ∀ stop ∈ ends, V ⟨follow, stop⟩
  | _ => True

/-- All visits in `V` were made within one rule, and `ends` holds where the rule stops. -/
structure Explored (q : Request) (frames : List Frame) (s : Session) (e : RuleEntry)
    (V : Visit → Prop) (ends : List Nat) (reach : List Nat → Visit → Prop) : Prop where
  stops : ∀ v, V v → v.index < q.window.size → q.engine.automaton.IsStop v.state →
    v.index ∈ ends
  next : ∀ v, V v → v.index < q.window.size →
    ∀ t ∈ q.engine.automaton.transitionsAt v.state, q.Followed frames s e V reach v t

def Closed (q : Request) (frames : List Frame) (s : Session) (e : RuleEntry) (ends : List Nat)
    (reach : List Nat → Visit → Prop) : Prop :=
  ∃ (r : Rule) (V : Visit → Prop), q.engine.automaton.rules[e.rule]? = some r ∧
    V ⟨r.start, e.index⟩ ∧ q.Explored frames s e V ends reach

/-- Everything a session remembers is closed, and what is being walked is not remembered. All ends
are real. -/
structure Knows (q : Request) (frames : List Frame) (s : Session)
    (reach : List Nat → Visit → Prop := fun _ _ => True) : Prop where
  cache : s.cache.Faithful q.engine.automaton q.engine.identity (fun _ => True)
  memo : ∀ e ends, s.memo.lookup e = some ends →
    q.Closed frames s e ends reach ∧ ∀ stop ∈ ends, q.Derives (.only fun _ => True) e stop
  unfinished : ∀ frame ∈ frames, s.memo.lookup frame.entry = none ∧
    ∀ stop ∈ frame.seed.getD [], q.Derives (.only fun _ => True) frame.entry stop

/-- A session that has gone on below the frames. -/
structure Extends (frames : List Frame) (s s' : Session) : Prop where
  memo : ∀ e ends, s.memo.lookup e = some ends → s'.memo.lookup e = some ends
  reentered : ∀ frame ∈ frames, frame.entry ∈ s.reentered → frame.entry ∈ s'.reentered
  candidates : s.candidates.Grows s'.candidates

theorem Extends.refl (frames : List Frame) (s : Session) : Extends frames s s :=
  ⟨fun _ _ => id, fun _ _ => id, .refl _⟩

theorem Extends.trans {s'' : Session} (h : Extends frames s s') (h' : Extends frames s' s'') :
    Extends frames s s'' where
  memo e ends hm := h'.memo e ends (h.memo e ends hm)
  reentered frame hf hr := h'.reentered frame hf (h.reentered frame hf hr)
  candidates := h.candidates.trans h'.candidates

variable {reach : List Nat → Visit → Prop}

theorem Noted.mono {c d : Candidates} (grows : c.Grows d) {target : Nat} {x : Symbol}
    (h : q.Noted reach c e target x) : q.Noted reach d e target x := by
  obtain ⟨rules, following, accounts, reached, forced⟩ := h
  exact ⟨rules, following, accounts.mono grows, reached, forced⟩

theorem Answered.mono (h : Extends frames s s') (ha : q.Answered frames s e ends reach) :
    q.Answered frames s' e ends reach := by
  cases ha with
  | known hm => exact .known (h.memo e ends hm)
  | @again frame hf hr hends =>
    have same : frame.entry = e := by simpa using List.find?_some hf
    exact .again hf (same ▸ h.reentered frame (List.mem_of_find?_eq_some hf) (same ▸ hr)) hends
  | missing hr => exact .missing hr
  | caret hr hc hfirst hend =>
    refine .caret hr hc (fun rule r' stack n target x hr' run path ht => ?_) hend
    exact (hfirst rule r' stack n target x hr' run path ht).mono h.candidates
  | pruned hr hc hfirst hend => exact .pruned hr hc hfirst hend

theorem Followed.imp {frames' : List Frame} {V V' : Visit → Prop} {v : Visit} {t : Transition}
    (grows : s.candidates.Grows s'.candidates)
    (answered : ∀ e ends, q.Answered frames s e ends reach → q.Answered frames' s' e ends reach)
    (more : ∀ w, V w → V' w) (h : q.Followed frames s e V reach v t) :
    q.Followed frames' s' e V' reach v t := by
  cases t with
  | epsilon target => exact more _ h
  | atom target x =>
    simp only [Followed] at h ⊢
    split
    case isTrue hc =>
      rw [if_pos hc] at h
      exact h.mono grows
    case isFalse hc =>
      rw [if_neg hc] at h
      exact fun hx => more _ (h hx)
  | call rule follow =>
    obtain ⟨ends, ha, hends⟩ := h
    exact ⟨ends, answered _ _ ha, fun stop hstop => more _ (hends stop hstop)⟩
  | set | notSet | wildcard | predicate => trivial

theorem Closed.imp {frames' : List Frame} {ends' : List Nat}
    (grows : s.candidates.Grows s'.candidates)
    (answered : ∀ e ends, q.Answered frames s e ends reach → q.Answered frames' s' e ends reach)
    (more : ∀ stop ∈ ends, stop ∈ ends') (h : q.Closed frames s e ends reach) :
    q.Closed frames' s' e ends' reach := by
  obtain ⟨r, V, hr, hstart, stops, next⟩ := h
  exact ⟨r, V, hr, hstart, fun v hv inside hs => more _ (stops v hv inside hs),
    fun v hv inside t ht => (next v hv inside t ht).imp grows answered fun _ => id⟩

/-- A session that has gone on without remembering more knows what it knew. -/
theorem Knows.of_memo_eq (h : q.Knows frames s reach) (ext : Extends frames s s')
    (hcache : s'.cache.Faithful q.engine.automaton q.engine.identity (fun _ => True))
    (hmemo : s'.memo = s.memo) : q.Knows frames s' reach where
  cache := hcache
  memo e ends hm := by
    obtain ⟨closed, real⟩ := h.memo e ends (hmemo ▸ hm)
    exact ⟨closed.imp ext.candidates (fun _ _ ha => ha.mono ext) fun _ => id, real⟩
  unfinished frame hf := hmemo ▸ h.unfinished frame hf

/-! ## Frames -/

section
variable {seed : Option (List Nat)} {last : List Nat}

theorem find?_push {e' : RuleEntry} :
    (⟨e, seed⟩ :: frames).find? (fun frame => frame.entry = e') =
      if e = e' then some ⟨e, seed⟩ else frames.find? (fun frame => frame.entry = e') := by
  rw [List.find?_cons]
  by_cases h : e = e' <;> simp [h]

theorem entry_ne (h : frames.find? (fun frame => frame.entry = e) = none) {frame : Frame}
    (hf : frame ∈ frames) : frame.entry ≠ e := by
  simpa using List.find?_eq_none.mp h frame hf

theorem Answered.push {e' : RuleEntry} (hnew : frames.find? (fun frame => frame.entry = e) = none)
    (h : q.Answered frames s e' ends reach) :
    q.Answered (⟨e, seed⟩ :: frames) s e' ends reach := by
  cases h with
  | known hm => exact .known hm
  | @again frame hf hr hends =>
    have other : e ≠ e' := by
      rintro rfl
      cases hnew.symm.trans hf
    exact .again (by rw [find?_push, if_neg other]; exact hf) hr hends
  | missing hr => exact .missing hr
  | caret hr hc hfirst hend => exact .caret hr hc hfirst hend
  | pruned hr hc hfirst hend => exact .pruned hr hc hfirst hend

theorem Knows.push (h : q.Knows frames s reach)
    (hnew : frames.find? (fun frame => frame.entry = e) = none) (hm : s.memo.lookup e = none)
    (hseed : ∀ stop ∈ seed.getD [], q.Derives (.only fun _ => True) e stop) :
    q.Knows (⟨e, seed⟩ :: frames) s reach where
  cache := h.cache
  memo e' ends hm' := by
    obtain ⟨closed, real⟩ := h.memo e' ends hm'
    exact ⟨closed.imp (.refl _) (fun _ _ ha => ha.push hnew) fun _ => id, real⟩
  unfinished := List.forall_mem_cons.mpr ⟨⟨hm, hseed⟩, h.unfinished⟩

def finish (s : Session) (e : RuleEntry) (ends : List Nat) : Session :=
  { s with memo := (e, ends) :: s.memo, reentered := s.reentered.erase e }

theorem lookup_finish (e e' : RuleEntry) :
    (finish s e last).memo.lookup e' = if e = e' then some last else s.memo.lookup e' := by
  by_cases h : e' = e
  · simp [finish, h]
  · have other : (e' == e) = false := by simpa using h
    simp [finish, List.lookup_cons, other, Ne.symm h]

/-- What rests on a seed rests on what is remembered, once the seed has all ends. -/
theorem Answered.pop {e' : RuleEntry} (hm : s.memo.lookup e = none)
    (hseed : e ∈ s.reentered → last = seed.getD [])
    (h : q.Answered (⟨e, seed⟩ :: frames) s e' ends reach) :
    q.Answered frames (finish s e last) e' ends reach := by
  cases h with
  | known hm' =>
    have other : e ≠ e' := by
      rintro rfl
      cases hm.symm.trans hm'
    exact .known (by rw [lookup_finish, if_neg other]; exact hm')
  | @again frame hf hr hends =>
    rw [find?_push] at hf
    split at hf
    case isTrue same =>
      cases hf
      subst same
      exact .known (by rw [lookup_finish, if_pos rfl, hends, hseed hr])
    case isFalse other =>
      exact .again hf ((List.mem_erase_of_ne (Ne.symm other)).mpr hr) hends
  | missing hr => exact .missing hr
  | caret hr hc hfirst hend => exact .caret hr hc hfirst hend
  | pruned hr hc hfirst hend => exact .pruned hr hc hfirst hend

theorem Knows.pop (h : q.Knows (⟨e, seed⟩ :: frames) s reach)
    (hnew : frames.find? (fun frame => frame.entry = e) = none)
    (hseed : e ∈ s.reentered → last = seed.getD [])
    (hlast : q.Closed (⟨e, seed⟩ :: frames) s e last reach)
    (hreal : ∀ stop ∈ last, q.Derives (.only fun _ => True) e stop) :
    q.Knows frames (finish s e last) reach where
  cache := h.cache
  memo := by
    intro e' ends hm
    have hm' := (h.unfinished _ List.mem_cons_self).1
    have known : q.Closed (⟨e, seed⟩ :: frames) s e' ends reach ∧
        ∀ stop ∈ ends, q.Derives (.only fun _ => True) e' stop := by
      rw [lookup_finish] at hm
      split at hm
      case isTrue same =>
        cases hm
        exact same ▸ ⟨hlast, hreal⟩
      case isFalse => exact h.memo e' ends hm
    exact ⟨known.1.imp (s := s) (.refl _) (fun _ _ ha => ha.pop hm' hseed) fun _ => id, known.2⟩
  unfinished := by
    intro frame hf
    rw [lookup_finish, if_neg (entry_ne hnew hf).symm]
    exact h.unfinished frame (List.mem_cons_of_mem _ hf)

theorem Extends.finish (h : Extends frames s s') (hm : s.memo.lookup e = none)
    (hnew : frames.find? (fun frame => frame.entry = e) = none) :
    Extends frames s (finish s' e last) where
  memo e' ends hm' := by
    have other : e ≠ e' := by
      rintro rfl
      cases hm.symm.trans hm'
    rw [lookup_finish, if_neg other]
    exact h.memo e' ends hm'
  reentered frame hf hr :=
    (List.mem_erase_of_ne (entry_ne hnew hf)).mpr (h.reentered frame hf hr)
  candidates := h.candidates

end

/-! ## Walks -/

/-- What entering a rule needs: the entry is reached below the rules of the frames. -/
structure EnterReady (q : Request) (frames : List Frame) (e : RuleEntry) (s : Session)
    (reach : List Nat → Visit → Prop) : Prop where
  knows : q.Knows frames s reach
  inside : e.index ≤ q.word.length
  reached : ∀ r, q.engine.automaton.rules[e.rule]? = some r →
    reach (callStack frames ++ [e.rule]) ⟨r.start, e.index⟩

structure EnterKnows (q : Request) (frames : List Frame) (e : RuleEntry) (s : Session)
    (ends : List Nat) (s' : Session) (reach : List Nat → Visit → Prop := fun _ _ => True) :
    Prop where
  knows : q.Knows frames s' reach
  grows : Extends frames s s'
  answered : q.Answered frames s' e ends reach
  real : ∀ stop ∈ ends, q.Derives (.only fun _ => True) e stop

theorem Taken.followed (hq : q.Thorough) {v : Visit} {t : Transition} {new : List Visit}
    (ht : t ∈ q.engine.automaton.transitionsAt v.state)
    (reached : ∀ r, q.engine.automaton.rules[e.rule]? = some r →
      reach (callStack frames) ⟨r.start, e.index⟩) (hs : q.Knows frames s reach)
    (h : Taken q frames v.index
      (fun rule ends s' => q.EnterKnows frames ⟨rule, v.index⟩ s ends s' reach) s t new s') :
    q.Knows frames s' reach ∧ Extends frames s s' ∧
      q.Followed frames s' e (· ∈ new) reach v t := by
  have plain := hq.plain v.state t ht
  cases h with
  | @call rule follow ends _ hends =>
    refine ⟨hends.knows, hends.grows, ends, hends.answered, fun stop hstop => ?_⟩
    exact List.mem_map_of_mem (List.mem_reverse.mpr hstop)
  | epsilon target =>
    have ext : Extends frames s { s with
        candidates :=
          if q.atCaret v.index then s.candidates.addOutermost q.engine frames []
          else s.candidates } := by
      refine ⟨fun _ _ => id, fun _ _ => id, ?_⟩
      dsimp only
      split
      · exact Candidates.grows_addOutermost ..
      · exact .refl _
    exact ⟨hs.of_memo_eq ext hs.cache rfl, ext, List.mem_singleton_self _⟩
  | predicate | wildcard => exact plain.elim
  | symbol hc ht hl hx =>
    obtain ⟨target, y, rfl, rfl⟩ := eq_atom_of_symbolLabel plain hl
    cases ht
    exact ⟨hs, .refl _ _, by simp [Followed, hc]⟩
  | @caret _ label following d hc hl hf hd =>
    have ext : Extends frames s { s with candidates := d } :=
      ⟨fun _ _ => id, fun _ _ => id, Candidates.grows_addBelow hd⟩
    refine ⟨hs.of_memo_eq ext hs.cache rfl, ext, ?_⟩
    obtain ⟨target, x, rfl, rfl⟩ := eq_atom_of_symbolLabel plain hl
    have accounts : d.Accounts q.engine (callStack frames ++ []) x following :=
      Candidates.accounts_addBelow hd (IntervalSet.mem_singleton.mpr rfl) (hq.ne_nothing ht)
    rw [List.append_nil] at accounts
    simp only [Followed, hc, if_true]
    exact ⟨_, following, accounts, reached, hf.imp_right fun forced => ⟨_, forced⟩⟩
  | refused ht hno =>
    refine ⟨hs, .refl _ _, ?_⟩
    cases t with
    | atom target x =>
      obtain ⟨hc, hx⟩ := (hno _ rfl).resolve_left (by simp [IntervalSet.singleton, IntervalSet.isEmpty])
      simp only [Followed, hc, Bool.false_eq_true, if_false]
      rintro rfl
      rw [(IntervalSet.contains_iff_mem (IntervalSet.canonical_singleton _)).mpr
        (IntervalSet.mem_singleton.mpr rfl)] at hx
      cases hx
    | epsilon | call => cases ht
    | set | notSet | wildcard | predicate => exact plain.elim

/-- A visit that has been made or will be, unless it lies outside. -/
def Due (q : Request) (expanded : Std.TreeSet Visit Visit.compare) (pending : List Visit)
    (v : Visit) : Prop :=
  v.state < q.engine.automaton.states.size → v.index < q.window.size →
    v ∈ expanded ∨ v ∈ pending

/-- What a walk keeps up: all visits made have been followed to visits made or due. -/
structure WalkKnows (q : Request) (frames : List Frame) (e : RuleEntry) (r : Rule) (s₀ : Session)
    (reach : List Nat → Visit → Prop) (expanded : Std.TreeSet Visit Visit.compare)
    (ends : List Nat) (pending : List Visit) (s : Session) : Prop where
  knows : q.Knows frames s reach
  grows : Extends frames s₀ s
  begun : q.Due expanded pending ⟨r.start, e.index⟩
  inside : Ends q.window.size ends
  along : q.Along (.only fun _ => True) e r ends pending
  stops : ∀ v ∈ expanded, q.engine.automaton.IsStop v.state → v.index ∈ ends
  next : ∀ v ∈ expanded, ∀ t ∈ q.engine.automaton.transitionsAt v.state,
    q.Followed frames s e (q.Due expanded pending) reach v t

section
variable {v : Visit} {r : Rule} {s₀ : Session} {expanded : Std.TreeSet Visit Visit.compare}
  {pending rest : List Visit}

theorem mem_insert_visit {w : Visit} : w ∈ expanded.insert v ↔ w = v ∨ w ∈ expanded := by
  have same : Visit.compare v w = .eq ↔ w = v := by
    obtain ⟨state, index⟩ := v
    obtain ⟨state', index'⟩ := w
    simp only [Visit.compare, compareLex, compareOn, Ordering.then_eq_eq, Visit.mk.injEq,
      Nat.compare_eq_eq]
    omega
  rw [Std.TreeSet.mem_insert, same]

theorem Due.imp {expanded' : Std.TreeSet Visit Visit.compare} {pending' : List Visit} {w : Visit}
    (h : q.Due expanded pending w) (made : ∀ u ∈ expanded, u ∈ expanded')
    (left : ∀ u ∈ pending, u ∈ expanded' ∨ u ∈ pending') : q.Due expanded' pending' w :=
  fun known inside => (h known inside).elim (fun hw => .inl (made w hw)) (left w)

theorem Due.visit {w : Visit} (h : q.Due expanded (v :: rest) w) (more : ∀ u ∈ rest, u ∈ pending) :
    q.Due (expanded.insert v) pending w := by
  refine h.imp (fun u hu => mem_insert_visit.mpr (.inr hu)) fun u hu => ?_
  rcases List.mem_cons.mp hu with rfl | hu
  · exact .inl (mem_insert_visit.mpr (.inl rfl))
  · exact .inr (more u hu)

theorem WalkKnows.drop (stale : q.isStale expanded v = true)
    (h : q.WalkKnows frames e r s₀ reach expanded ends (v :: pending) s) :
    q.WalkKnows frames e r s₀ reach expanded ends pending s := by
  have due : ∀ w, q.Due expanded (v :: pending) w → q.Due expanded pending w := by
    intro w hw known inside
    rcases hw known inside with hw | hw
    · exact .inl hw
    · rcases List.mem_cons.mp hw with rfl | hw
      · apply Classical.byContradiction
        intro fresh
        rw [not_or] at fresh
        rw [isStale_eq_false.mpr ⟨fresh.1, known, inside⟩] at stale
        cases stale
      · exact .inr hw
  exact ⟨h.knows, h.grows, due _ h.begun, h.inside, h.along.drop, h.stops, fun v hv t ht =>
    (h.next v hv t ht).imp (.refl _) (fun _ _ => id) due⟩

theorem extends_statesProcessed (frames : List Frame) (s : Session) (count : Nat) :
    Extends frames s { s with statesProcessed := count } :=
  ⟨fun _ _ => id, fun _ _ => id, .refl _⟩

theorem WalkKnows.count (count : Nat)
    (h : q.WalkKnows frames e r s₀ reach expanded ends pending s) :
    q.WalkKnows frames e r s₀ reach expanded ends pending { s with statesProcessed := count } := by
  have ext := extends_statesProcessed frames s count
  exact ⟨h.knows.of_memo_eq ext h.knows.cache rfl, h.grows.trans ext, h.begun, h.inside, h.along,
    h.stops, fun v hv t ht => (h.next v hv t ht).imp ext.candidates (fun _ _ ha => ha.mono ext)
      fun _ => id⟩

theorem WalkKnows.stop (hq : q.Thorough) (hr : q.engine.automaton.rules[e.rule]? = some r)
    (fresh : q.isStale expanded v = false) (hstop : q.engine.automaton.IsStop v.state)
    (h : q.WalkKnows frames e r s₀ reach expanded ends (v :: rest) s) :
    q.WalkKnows frames e r s₀ reach (expanded.insert v) (insertAscending v.index ends) rest s := by
  have due : ∀ w, q.Due expanded (v :: rest) w → q.Due (expanded.insert v) rest w :=
    fun w hw => hw.visit fun _ => id
  refine ⟨h.knows, h.grows, due _ h.begun, h.inside.insert (isStale_eq_false.mp fresh).2.2,
    h.along.stop hr hstop, ?_, ?_⟩
  · intro w hw hs
    rw [mem_insertAscending]
    rcases mem_insert_visit.mp hw with rfl | hw
    · exact .inl rfl
    · exact .inr (h.stops w hw hs)
  · intro w hw t ht
    rcases mem_insert_visit.mp hw with rfl | hw
    · rw [hq.wellFormed.stop_closed hstop] at ht
      cases ht
    · exact (h.next w hw t ht).imp (.refl _) (fun _ _ => id) due

theorem WalkKnows.takeAll (hq : q.Thorough) (traces : q.Traces (.only fun _ => True) reach)
    {call : Nat → Nat → Search (List Nat)}
    (hcall : ∀ rule place s, q.EnterReady frames ⟨rule, place⟩ s reach →
      Yields (fun _ => False) (call rule place) s
        fun ends s' => q.EnterKnows frames ⟨rule, place⟩ s ends s' reach)
    (hr : q.engine.automaton.rules[e.rule]? = some r)
    (reached : reach (callStack frames) ⟨r.start, e.index⟩)
    (hstop : ¬ q.engine.automaton.IsStop v.state)
    (h : q.WalkKnows frames e r s₀ reach expanded ends (v :: rest) s) :
    Yields (fun _ => False)
      (q.takeAll call frames v.index (q.engine.automaton.transitionsAt v.state) rest) s
      (q.WalkKnows frames e r s₀ reach (expanded.insert v) ends) := by
  have regular := hq.regular.trusts
  have passes := h.along.here
  have here := traces.passes regular reached passes
  have entry : ∀ r', q.engine.automaton.rules[e.rule]? = some r' →
      reach (callStack frames) ⟨r'.start, e.index⟩ := by
    intro r' hr'
    cases hr.symm.trans hr'
    exact reached
  -- What has been followed so far is kept, the transitions in `todo` are still to be taken.
  let Inv (todo : List Transition) (pending : List Visit) (s' : Session) : Prop :=
    q.Knows frames s' reach ∧ Extends frames s s' ∧ (∀ w ∈ rest, w ∈ pending) ∧
      q.Along (.only fun _ => True) e r ends pending ∧
      ∀ t ∈ q.engine.automaton.transitionsAt v.state, t ∈ todo ∨
        q.Followed frames s' e (q.Due (expanded.insert v) pending) reach v t
  refine (takeAll_yields Inv ?_
    ⟨h.knows, .refl _ _, fun _ => id, h.along.drop, fun t ht => .inl ht⟩).mono ?_
  · rintro t ht todo pending s₁ ⟨hk, ext, hrest, along, followed⟩
    refine (take_yields (fun rule ends s' => q.EnterKnows frames ⟨rule, v.index⟩ s₁ ends s' reach)
      (.inr hq.unfailing) (.inr (listableLabels_of_plain hq.plain v.state t ht)) pending ?_).mono ?_
    · rintro rule follow rfl
      exact hcall rule v.index s₁
        ⟨hk, passes.le, fun r' hr' => traces.call regular here passes.le ht hr'⟩
    rintro _ s₂ ⟨new, rfl, taken⟩
    obtain ⟨hk', ext', done⟩ := taken.followed hq ht entry hk
    have further := taken.passes regular (fun _ _ _ h => h.real) passes.le ht
    refine ⟨hk', ext.trans ext', fun w hw => List.mem_append_right _ (hrest w hw),
      along.take regular passes further, ?_⟩
    intro t' ht'
    rcases followed t' ht' with hm | before
    · rcases List.mem_cons.mp hm with rfl | hm
      · exact .inr (done.imp (.refl _) (fun _ _ => id)
          fun w hw _ _ => .inr (List.mem_append_left _ hw))
      · exact .inl hm
    · exact .inr (before.imp ext'.candidates (fun _ _ ha => ha.mono ext')
        fun w hw => hw.imp (fun _ => id) fun u hu => .inr (List.mem_append_right _ hu))
  · rintro pending s' ⟨hk, ext, hrest, along, followed⟩
    have due : ∀ w, q.Due expanded (v :: rest) w → q.Due (expanded.insert v) pending w :=
      fun w hw => hw.visit hrest
    refine ⟨hk, h.grows.trans ext, due _ h.begun, h.inside, along, ?_, ?_⟩
    · intro w hw hs
      rcases mem_insert_visit.mp hw with rfl | hw
      · exact absurd hs hstop
      · exact h.stops w hw hs
    · intro w hw t ht
      rcases mem_insert_visit.mp hw with rfl | hw
      · exact (followed t ht).resolve_left List.not_mem_nil
      · exact (h.next w hw t ht).imp ext.candidates (fun _ _ ha => ha.mono ext) due

end

theorem walk_knows (hq : q.Thorough) (traces : q.Traces (.only fun _ => True) reach)
    {call : Nat → Nat → Search (List Nat)}
    (hcall : ∀ rule place s, q.EnterReady frames ⟨rule, place⟩ s reach →
      Yields (fun _ => False) (call rule place) s
        fun ends s' => q.EnterKnows frames ⟨rule, place⟩ s ends s' reach)
    {r : Rule} (hr : q.engine.automaton.rules[e.rule]? = some r)
    (reached : reach (callStack frames) ⟨r.start, e.index⟩) (inside : e.index ≤ q.word.length)
    (hs : q.Knows frames s reach) :
    Yields (fun _ => False) (q.walk call frames r.start e.index) s fun found s' =>
      q.Knows frames s' reach ∧ Extends frames s s' ∧ Ends q.window.size found ∧
        q.Closed frames s' e found reach ∧
        ∀ stop ∈ found, q.Derives (.only fun _ => True) e stop := by
  have begun : q.Due ∅ [⟨r.start, e.index⟩] ⟨r.start, e.index⟩ :=
    fun _ _ => .inr (List.mem_singleton_self _)
  refine (walkFrom_yields (q.WalkKnows frames e r s reach) ?_ ?_ ?_
    ⟨hs, .refl _ _, begun, .nil, along_start inside, by simp, by simp⟩).mono ?_
  · exact fun expanded ends v pending s stale h => h.drop stale
  · exact fun expanded ends v rest s fresh hstop h => (h.stop hq hr fresh hstop).count _
  · exact fun expanded ends v rest s _ hstop h =>
      (h.count _).takeAll hq traces hcall hr reached hstop
  · rintro found s' ⟨expanded, h⟩
    refine ⟨h.knows, h.grows, h.inside, ⟨r, q.Due expanded [], hr, h.begun, ?_, ?_⟩, h.along.ends⟩
    · rintro v hv inside ⟨state, hstate, kind⟩
      have known : v.state < q.engine.automaton.states.size :=
        (Array.getElem?_eq_some_iff.mp hstate).choose
      have made := (hv known inside).resolve_right List.not_mem_nil
      exact h.stops v made ⟨state, hstate, kind⟩
    · intro v hv inside t ht
      by_cases known : v.state < q.engine.automaton.states.size
      · exact h.next v ((hv known inside).resolve_right List.not_mem_nil) t ht
      · simp [transitionsAt, Array.getElem?_eq_none (Nat.not_lt.mp known)] at ht

/-! ## Rules that are entered -/

theorem Thorough.affirming (hq : q.Thorough) (evaluator : Option Evaluator) :
    Survey.Affirming q.engine.automaton evaluator :=
  fun n _ _ _ ht => (hq.plain n _ ht).elim

theorem Thorough.tame_survey (hq : q.Thorough) (start : Nat) :
    Survey.Tame q.engine.automaton start :=
  fun rule _ _ _ _ nullable => hq.tame rule nullable

section
variable {r : Rule} {sets : FollowSets}

theorem Thorough.followSets (hq : q.Thorough) {rule : Nat}
    (hr : q.engine.automaton.rules[rule]? = some r)
    (h : sets.Surveyed q.engine.automaton (fun _ => True) r) :
    sets.Complete q.engine.automaton r ∧ ∀ x, sets.combined.contains x = true ↔
      ∃ set ∈ sets.sets, x ∈ set.symbols := by
  obtain ⟨_, evaluator, _, confirms, found⟩ := h
  have sound := FollowSets.ofRule_sound hr hq.wellFormed.inPlace hq.wellFormed.stays confirms found
  exact ⟨FollowSets.ofRule_complete hq.wellFormed hr (hq.tame_survey _) (hq.affirming _) found,
    fun x => sound.contains_iff hq.bounds⟩

/-- What a rule that is reached without input starts with stands in a set of its own, whose path
leads to that rule. -/
theorem Thorough.followSet (hq : q.Thorough) {rule rule' : Nat}
    (hr : q.engine.automaton.rules[rule]? = some r)
    (h : sets.Surveyed q.engine.automaton (fun _ => True) r) {r' : Rule} {stack : List Nat}
    {n target : Nat} {x : Symbol} (hr' : q.engine.automaton.rules[rule']? = some r')
    (run : Run q.engine.automaton (fun _ => True) ⟨r.start, []⟩ [] ⟨r'.start, stack⟩)
    (path : Path q.engine.automaton (fun _ => True) r'.start [] n)
    (ht : .atom target x ∈ q.engine.automaton.transitionsAt n) :
    ∃ set ∈ sets.sets, x ∈ set.symbols ∧
      (set.following = [] ∨
        ∃ ignored, set.following = forcedFrom q.engine.automaton ignored [] target) ∧
      ∃ stack, Run q.engine.automaton (fun _ => True) ⟨r.start, []⟩ [] ⟨r'.start, stack⟩ ∧
        q.engine.automaton.activeRules ⟨r'.start, stack⟩ =
          q.engine.automaton.activeRules ⟨r.start, []⟩ ++ set.path := by
  obtain ⟨ignored, evaluator, asked, -, found⟩ := h
  obtain ⟨set, hset, symbols, met, following⟩ :=
    FollowSets.ofRule_items hq.wellFormed hr (hq.tame_survey _) (hq.affirming _) found
      (run.trans (path.run stack)) ht rfl rfl
  refine ⟨set, hset, symbols ▸ IntervalSet.mem_singleton.mpr rfl,
    following.imp_right fun forced => ⟨ignored, forced⟩, ?_⟩
  obtain ⟨rule'', r'', hr'', ⟨kind, owned⟩, -, met⟩ := met
  -- The state belongs to one rule only.
  have owner := hq.wellFormed.stays.owner?_path path
  rw [owner?_of_shape? owned, owner?_of_shape? (hq.wellFormed.inPlace rule' r' hr').1] at owner
  cases owner
  cases hr'.symm.trans hr''
  exact met

end

theorem Entered.knows (hq : q.Thorough) (traces : q.Traces (.only fun _ => True) reach)
    (h : q.EnterReady frames e s reach)
    (he : Entered q (FollowSets.Surveyed q.engine.automaton fun _ => True) frames e s ends s') :
    q.EnterKnows frames e s ends s' reach := by
  obtain ⟨hs, inside, reached⟩ := h
  have real := he.derives hq.regular.trusts (fun ends hm => (hs.memo e ends hm).2)
    (fun frame hf => (hs.unfinished frame hf).2) fun _ _ => inside
  cases he with
  | known hm => exact ⟨hs, .refl _ _, .known hm, real⟩
  | @again frame hm hf =>
    have ext : Extends frames s { s with reentered := s.reentered.insert e } :=
      ⟨fun _ _ => id, fun _ _ hr => List.mem_insert_of_mem hr, .refl _⟩
    exact ⟨hs.of_memo_eq ext hs.cache rfl, ext, .again hf List.mem_insert_self rfl, real⟩
  | missing hr => exact ⟨hs, .refl _ _, .missing hr, real⟩
  | @caret r sets cache asked d hr hc hcache hsets hd =>
    have ext : Extends frames s { s with cache := cache, asked := asked, candidates := d } :=
      ⟨fun _ _ => id, fun _ _ => id, Candidates.grows_addFollowSets hd⟩
    refine ⟨hs.of_memo_eq ext hcache rfl, ext, .caret hr hc ?_ ?_, real⟩
    · intro rule r' stack n target x hr' run path ht
      obtain ⟨set, hset, hx, following, stack', run', active⟩ :=
        hq.followSet hr hsets hr' run path ht
      refine ⟨_, _, Candidates.accounts_addFollowSets hd hset hx (hq.ne_nothing ht), ?_, following⟩
      intro r'' hr''
      cases hr'.symm.trans hr''
      have below := traces _ set.path _ ⟨r'.start, e.index⟩ stack' (reached r hr)
        (.of_run run' (.refl inside)) active
      rwa [List.append_assoc] at below
    · intro path
      obtain ⟨complete, contains⟩ := hq.followSets hr hsets
      have canEnd : sets.canEnd = true := (contains _).mpr (complete.ends path)
      simp [canEnd]
  | @pruned r sets cache asked hr hc hcache hsets hend hnext =>
    have ext : Extends frames s { s with cache := cache, asked := asked } :=
      ⟨fun _ _ => id, fun _ _ => id, .refl _⟩
    obtain ⟨complete, contains⟩ := hq.followSets hr hsets
    refine ⟨hs.of_memo_eq ext hcache rfl, ext, .pruned hr hc ?_ ?_, real⟩
    · intro n stack run hx
      rw [(contains _).mpr (complete.offers run hx)] at hnext
      cases hnext
    · intro path
      rw [FollowSets.canEnd, (contains _).mpr (complete.ends path)] at hend
      cases hend

theorem enterRule_notes (hq : q.Thorough) (traces : q.Traces (.only fun _ => True) reach)
    (h : q.EnterReady frames e s reach) :
    Yields (fun _ => False) (q.enterRule frames e.rule e.index) s
      fun ends s' => q.EnterKnows frames e s ends s' reach := by
  have labels := listableLabels_of_plain hq.plain
  refine enterRule_yields (fun frames e s => q.EnterReady frames e s reach)
    (fun frames e s ends s' => q.EnterKnows frames e s ends s' reach) hq.wellFormed.inPlace
    (finds_surveyed (Survey.confirms_true _)) ⟨.inr hq.unfailing, .inr labels⟩
    (.inr fun _ _ surveyed => surveyed.listable labels) (fun _ _ _ h => h.knows.cache)
    (fun _ _ _ _ _ h he => he.knows hq traces h) ?_ h
  intro frames e s r cache asked ⟨hs, inside, reached⟩ hm hnew hr _ hcache rec
  let Real (ends : List Nat) : Prop := ∀ stop ∈ ends, q.Derives (.only fun _ => True) e stop
  -- Before each round nothing is remembered but what was remembered when the rule was entered.
  let Pre (seed : Option (List Nat)) (s' : Session) : Prop :=
    q.Knows frames s' reach ∧ Extends frames s s' ∧ s'.memo = s.memo ∧
      Ends q.window.size (seed.getD []) ∧ Real (seed.getD [])
  let Found (seed : Option (List Nat)) (found : List Nat) (s' : Session) : Prop :=
    q.Knows (⟨e, seed⟩ :: frames) s' reach ∧ Extends frames s s' ∧
      Ends q.window.size (seed.getD []) ∧ Ends q.window.size found ∧
      q.Closed (⟨e, seed⟩ :: frames) s' e found reach ∧ Real (unionEnds found (seed.getD []))
  refine (grow_yields Pre Found ?_ ?_).mono ?_
  · rintro seed s₁ ⟨hs₁, ext, memo, hseed, realSeed⟩
    have below := reached r hr
    rw [← callStack_cons ⟨e, seed⟩] at below
    refine (walk_knows hq traces (fun rule place s => rec seed rule place s) hr below inside
      (hs₁.push hnew (memo ▸ hm) realSeed)).mono ?_
    rintro found s₂ ⟨hs₂, ext', hfound, closed, real⟩
    have inner : Extends frames s₁ s₂ :=
      ⟨ext'.memo, fun frame hf => ext'.reentered frame (List.mem_cons_of_mem _ hf),
        ext'.candidates⟩
    have reset : Extends frames s₁ { s₂ with memo := s₁.memo } :=
      ⟨fun _ _ => id, inner.reentered, inner.candidates⟩
    have union : Real (unionEnds found (seed.getD [])) := fun stop hstop =>
      (mem_unionEnds.mp hstop).elim (real stop) (realSeed stop)
    exact ⟨⟨hs₂, ext.trans inner, hseed, hfound, closed, union⟩,
      hs₁.of_memo_eq reset hs₂.cache rfl, ext.trans reset, memo, hfound.union hseed, union⟩
  · have ext : Extends frames s { s with cache := cache, asked := asked } :=
      ⟨fun _ _ => id, fun _ _ => id, .refl _⟩
    exact ⟨hs.of_memo_eq ext hcache rfl, ext, rfl, .nil, by simp [Real]⟩
  · rintro ends s' ⟨seed, found, ⟨hs', ext, hseed, hfound, closed, union⟩, last⟩
    have all : (∀ stop ∈ found, stop ∈ ends) ∧ (e ∈ s'.reentered → ends = seed.getD []) ∧
        Real ends := by
      split at last
      case isTrue =>
        obtain ⟨rfl, stopped⟩ := last
        exact ⟨fun stop hstop => mem_unionEnds.mpr (.inl hstop),
          fun _ => eq_seed_of_outgrows hseed hfound stopped, union⟩
      case isFalse alone =>
        subst last
        exact ⟨fun _ => id, fun reentered => absurd reentered alone,
          fun stop hstop => union stop (mem_unionEnds.mpr (.inl hstop))⟩
    obtain ⟨more, grown, real⟩ := all
    refine ⟨hs'.pop hnew grown (closed.imp (.refl _) (fun _ _ => id) more) real,
      ext.finish hm hnew, .known ?_, real⟩
    exact (lookup_finish e e).trans (if_pos rfl)

/-- From the first token on nothing is missed, whatever the calls are by which rules are reached. -/
theorem enterRule_knows (hq : q.Exhaustive) (hs : q.Knows [] s)
    (first : e.index ≤ q.word.length := by exact Nat.zero_le _) :
    Yields (fun _ => False) (q.enterRule [] e.rule e.index) s (fun ends s' => q.EnterKnows [] e s ends s') :=
  enterRule_notes hq.toThorough (fun _ _ _ _ _ _ _ _ => trivial)
    ⟨hs, first, fun _ _ => trivial⟩

end Request

end GrammarCompletion
