import GrammarCompletion.Ebnf.Check
import GrammarCompletion.Proofs.Lexer.Greedy
import Mathlib.Logic.Relation

/-!
# Lengths that do not depend on what is remembered

A name that is met again at its own spot does not match there. What its production then matches is
remembered under every name on the way, and is right only for the name that was met first. So a length may
depend on the names being visited and on what is remembered, but only if two names are entangled, that is,
if each may come first in what the other stands for. A name that leads to no entangled ones is settled: it
always has the same length, which plain recursion gives if a production that comes first in itself does not
match there (`Settles`). Of two runs of the matcher that remember the same for all other names, both find
the same lengths and remember the same afterwards (`Matches.agree`).
-/

namespace GrammarCompletion

open Relation

namespace Ebnf.Source

/-- The production with a name may look up another name before a byte is passed. -/
def Leads (source : Source) (a b : Bytes) : Prop :=
  ∃ body, source.body? a = some body ∧ b ∈ body.leading

def Uses (source : Source) (a b : Bytes) : Prop :=
  ∃ body, source.body? a = some body ∧ b ∈ body.names.map Located.text

def Reaches (source : Source) : Bytes → Bytes → Prop := ReflTransGen source.Uses

/-- The name is mutually left-recursive with another one. -/
def Entangled (source : Source) (a : Bytes) : Prop :=
  ∃ b, b ≠ a ∧ TransGen source.Leads a b ∧ TransGen source.Leads b a

/-- The name leads to no entangled name, itself included. -/
def Settled (source : Source) (a : Bytes) : Prop := ∀ b, source.Reaches a b → ¬ source.Entangled b

theorem Settled.of_reaches {source : Source} {a b : Bytes} (h : source.Settled a)
    (reaches : source.Reaches a b) : source.Settled b :=
  fun c further => h c (reaches.trans further)

end Ebnf.Source

namespace Lexer

open Ebnf

/-! ## Settled lengths -/

namespace Part

def names : Part → List Bytes
  | .expr e => e.names.map Located.text
  | .name n => [n]
  | .sequence _ items | .longest items => (Expr.namesOfAll items).map Located.text
  | .repetition body => body.names.map Located.text

theorem forall_names_sequence {P : Bytes → Prop} {total : Nat} {x : Expr} {items : List Expr}
    (h : ∀ n ∈ (Part.sequence total (x :: items)).names, P n) (total' : Nat) :
    (∀ n ∈ (Part.expr x).names, P n) ∧ ∀ n ∈ (Part.sequence total' items).names, P n := by
  rw [names, Expr.namesOfAll, List.map_append] at h
  exact List.forall_mem_append.mp h

theorem forall_names_longest {P : Bytes → Prop} {x : Expr} {items : List Expr}
    (h : ∀ n ∈ (Part.longest (x :: items)).names, P n) :
    (∀ n ∈ (Part.expr x).names, P n) ∧ ∀ n ∈ (Part.longest items).names, P n := by
  rw [names, Expr.namesOfAll, List.map_append] at h
  exact List.forall_mem_append.mp h

end Part

/-- The length where a production's own name is barred inside it. -/
abbrev Settles (source : Source) : Option Bytes → Part → Bytes → Nat → Prop := Recursion source some

/-! ## What a run keeps -/

variable {source : Source} {whole : Bytes} {visiting : List Key} {part : Part} {s : Spot} {memo : Memo}
  {result : Nat × Memo}

theorem Memo.find?_cons_of_ne {key other : Key} (n : Nat) (differs : key ≠ other) :
    Memo.find? ((key, n) :: memo) other = memo.find? other := by
  rw [Memo.find?, if_neg]
  rintro ⟨offset, name⟩
  cases key
  cases other
  exact differs (by simp_all)

theorem ne_of_isNew {key other : Key} (isNew : visiting.contains key = false) (member : other ∈ visiting) :
    key ≠ other := by
  rintro rfl
  rw [List.contains_iff_mem.mpr member] at isNew
  cases isNew

/-- Only what the names of a part reach is remembered. -/
theorem Matches.find?_of_unreached (h : Matches source visiting part s memo result) {key : Key}
    (unreached : ∀ n ∈ part.names, ¬ source.Reaches n key.name) :
    result.2.find? key = memo.find? key := by
  induction h with
  | literal | range | done | noChoice | known | cycle => rfl
  | name _ ih | sequence _ ih | alternative _ ih | group _ ih | option _ ih | repetition _ ih
  | once _ _ ih => exact ih unreached
  | @missing visiting name s memo unknown isNew undefined =>
    apply Memo.find?_cons_of_ne
    rintro rfl
    exact unreached name List.mem_cons_self .refl
  | @production visiting name body s memo memo' n unknown isNew defined h ih =>
    have other : (⟨name, s.offset⟩ : Key) ≠ key := by
      rintro rfl
      exact unreached name List.mem_cons_self .refl
    rw [Memo.find?_cons_of_ne n other]
    apply ih
    intro m used reaches
    exact unreached name List.mem_cons_self (.head ⟨body, defined, used⟩ reaches)
  | failed first fail ih => exact ih (Part.forall_names_sequence unreached 0).1
  | @next visiting total n x items s memo memo' result first passed others ih ih' =>
    have ⟨here, behind⟩ := Part.forall_names_sequence unreached (total + n)
    exact (ih' behind).trans (ih here)
  | choice first others ih ih' =>
    have ⟨here, behind⟩ := Part.forall_names_longest unreached
    exact (ih' behind).trans (ih here)
  | again first more others ih ih' => exact (ih' unreached).trans (ih unreached)

/-- A name that is being visited is not remembered meanwhile. -/
theorem Matches.find?_of_visiting (h : Matches source visiting part s memo result)
    (absent : ∀ key ∈ visiting, memo.find? key = none) :
    ∀ key ∈ visiting, result.2.find? key = none := by
  induction h with
  | literal | range | done | noChoice | known | cycle => exact absent
  | name _ ih | sequence _ ih | alternative _ ih | group _ ih | option _ ih | repetition _ ih
  | failed _ _ ih | once _ _ ih => exact ih absent
  | next _ _ _ ih ih' | choice _ _ ih ih' | again _ _ _ ih ih' => exact ih' (ih absent)
  | missing unknown isNew undefined =>
    intro key member
    rw [Memo.find?_cons_of_ne _ (ne_of_isNew isNew member)]
    exact absent key member
  | production unknown isNew defined _ ih =>
    intro key member
    rw [Memo.find?_cons_of_ne _ (ne_of_isNew isNew member)]
    exact ih (List.forall_mem_cons.mpr ⟨unknown, absent⟩) key (List.mem_cons_of_mem _ member)

theorem Matches.sound (h : Matches source visiting part s memo result) (here : s.At whole)
    (sound : memo.Sound source whole) : result.2.Sound source whole := by
  have correct : part.Correct source whole s memo result := h.correct
  cases part with
  | expr e => exact (correct here sound).2
  | name n => exact (correct here sound).2
  | sequence total items => exact (correct here sound).2
  | longest items => exact (correct here sound).2
  | repetition body => exact (correct here sound).2

theorem Matches.le_length {e : Expr} (h : Matches source visiting (.expr e) s memo result)
    (here : s.At whole) (sound : memo.Sound source whole) : result.1 ≤ s.rest.length :=
  (h.correct here sound).1.within

def Memo.Settled (source : Source) (whole : Bytes) (memo : Memo) : Prop :=
  ∀ key n, source.Settled key.name → memo.find? key = some n →
    Settles source none (.name key.name) (whole.drop key.offset) n

/-- A spot at which some names may be looked up: each name being visited there leads to all of them, none
is being visited further on, and none is remembered. -/
structure Ready (source : Source) (whole : Bytes) (visiting : List Key) (s : Spot) (memo : Memo)
    (names : List Bytes) : Prop where
  here : s.At whole
  sound : memo.Sound source whole
  settled : memo.Settled source whole
  absent : ∀ key ∈ visiting, memo.find? key = none
  behind : ∀ key ∈ visiting, key.offset ≤ s.offset
  leads : ∀ key ∈ visiting, key.offset = s.offset → ∀ m ∈ names, TransGen source.Leads key.name m

/-- Of some names to look up at a spot, only the own name is being visited there. -/
def Owns (visiting : List Key) (s : Spot) (own : Option Bytes) (names : List Bytes) : Prop :=
  ∀ m ∈ names, (⟨m, s.offset⟩ : Key) ∈ visiting ↔ own = some m

theorem Owns.fewer {own : Option Bytes} {names names' : List Bytes} (h : Owns visiting s own names)
    (fewer : names' ⊆ names) : Owns visiting s own names' :=
  fun m listed => h m (fewer listed)

namespace Ready

variable {names : List Bytes}

theorem start (source : Source) (whole : Bytes) {memo : Memo} (sound : memo.Sound source whole)
    (settled : memo.Settled source whole) (names : List Bytes) :
    Ready source whole [] ⟨0, whole⟩ memo names where
  here := rfl
  sound := sound
  settled := settled
  absent := List.forall_mem_nil _
  behind := List.forall_mem_nil _
  leads := List.forall_mem_nil _

theorem after (ready : Ready source whole visiting s memo names)
    (h : Matches source visiting part s memo result) (settled : result.2.Settled source whole)
    {names' : List Bytes} (fewer : names' ⊆ names) : Ready source whole visiting s result.2 names' where
  here := ready.here
  sound := h.sound ready.here ready.sound
  settled := settled
  absent := h.find?_of_visiting ready.absent
  behind := ready.behind
  leads key member here m listed := ready.leads key member here m (fewer listed)

theorem fewer (ready : Ready source whole visiting s memo names) {names' : List Bytes}
    (fewer : names' ⊆ names) : Ready source whole visiting s memo names' :=
  { ready with leads := fun key member here m listed => ready.leads key member here m (fewer listed) }

theorem advance (ready : Ready source whole visiting s memo names) {e : Expr} {n : Nat} {memo' : Memo}
    (h : Matches source visiting (.expr e) s memo (n, memo')) (settled : memo'.Settled source whole)
    (nonzero : n ≠ 0) (names' : List Bytes) :
    Ready source whole visiting (s.advance n) memo' names' ∧ Owns visiting (s.advance n) none names' := by
  have within : n ≤ s.rest.length := h.le_length ready.here ready.sound
  have further : ∀ key ∈ visiting, key.offset < (s.advance n).offset := by
    intro key member
    have behind := ready.behind key member
    rw [Spot.offset_advance, Nat.min_eq_left within]
    omega
  constructor
  · constructor
    · exact ready.here.advance n
    · exact h.sound ready.here ready.sound
    · exact settled
    · exact h.find?_of_visiting ready.absent
    · exact fun key member => Nat.le_of_lt (further key member)
    · exact fun key member here => absurd here (Nat.ne_of_lt (further key member))
  · intro m _
    exact iff_of_false (fun member => Nat.lt_irrefl _ (further _ member)) (Option.some_ne_none m).symm

theorem next {total n : Nat} {x : Expr} {items : List Expr} {memo' : Memo}
    (ready : Ready source whole visiting s memo (Part.sequence total (x :: items)).leading)
    (h : Matches source visiting (.expr x) s memo (n, memo')) (settled : memo'.Settled source whole)
    (passed : ¬(n = 0 ∧ (!isOptional x) = true)) :
    Ready source whole visiting (s.advance n) memo' (leadingInSequence items) ∧
      ∀ own, Owns visiting s own (Part.sequence total (x :: items)).leading →
        Owns visiting (s.advance n) (if n = 0 then own else none) (leadingInSequence items) := by
  by_cases zero : n = 0
  · -- nothing was passed, so the item was optional and the others come first too
    have optional : isOptional x = true := by simpa [zero] using passed
    have also : leadingInSequence items ⊆ (Part.sequence total (x :: items)).leading := by
      simp [Part.leading, leadingInSequence, optional]
    subst zero
    exact ⟨ready.after h settled also, fun own owns => owns.fewer also⟩
  · obtain ⟨ready', owns'⟩ := ready.advance h settled zero (leadingInSequence items)
    refine ⟨ready', fun own _ => ?_⟩
    rw [if_neg zero]
    exact owns'

/-- The names that come first in the body of a production may be looked up while it is being visited. -/
theorem visit {name : Bytes} {body : Expr} (ready : Ready source whole visiting s memo [name])
    (unknown : memo.find? ⟨name, s.offset⟩ = none) (defined : source.body? name = some body) :
    Ready source whole (⟨name, s.offset⟩ :: visiting) s memo body.leading where
  here := ready.here
  sound := ready.sound
  settled := ready.settled
  absent := List.forall_mem_cons.mpr ⟨unknown, ready.absent⟩
  behind := List.forall_mem_cons.mpr ⟨Nat.le_refl _, ready.behind⟩
  leads := by
    rw [List.forall_mem_cons]
    constructor
    · intro _ m first
      exact .single ⟨body, defined, first⟩
    · intro key member here m first
      exact (ready.leads key member here name List.mem_cons_self).tail ⟨body, defined, first⟩

end Ready

/-! ## Settled names -/

theorem Memo.Settled.cons {name : Bytes} {n : Nat} (settled : memo.Settled source whole)
    (here : s.At whole) (h : source.Settled name → Settles source none (.name name) s.rest n) :
    Memo.Settled source whole ((⟨name, s.offset⟩, n) :: memo) := by
  intro key m quiet found
  rcases Memo.find?_cons found with ⟨rfl, rfl⟩ | old
  · rw [← show s.rest = whole.drop s.offset from here]
    exact h quiet
  · exact settled key m quiet old

theorem Settles.of_none {own : Option Bytes} {n rest : Bytes} {length : Nat}
    (h : Settles source none (.name n) rest length) (other : own ≠ some n) :
    Settles source own (.name n) rest length := by
  cases h with
  | missing _ undefined => exact .missing other undefined rest
  | production _ defined h => exact .production other defined h

/-- Inside a production with a settled name, a name that comes first is its own or is not being visited:
otherwise each of the two would lead to the other. -/
theorem Ready.owns_visit {name : Bytes} {body : Expr} (ready : Ready source whole visiting s memo [name])
    (defined : source.body? name = some body) (settled : source.Settled name) :
    Owns (⟨name, s.offset⟩ :: visiting) s (some name) body.leading := by
  intro m first
  rw [List.mem_cons, Option.some.injEq]
  constructor
  · rintro (same | member)
    · exact (Key.mk.inj same).1.symm
    · by_cases same : name = m
      · exact same
      · have back := ready.leads _ member rfl name List.mem_cons_self
        exact (settled name .refl ⟨m, Ne.symm same, .single ⟨body, defined, first⟩, back⟩).elim
  · rintro rfl
    exact .inl rfl

/-- Settled parts have settled lengths, whatever is being visited and remembered, and the lengths of
settled names are remembered. -/
theorem Matches.settles (h : Matches source visiting part s memo result)
    (ready : Ready source whole visiting s memo part.leading) :
    result.2.Settled source whole ∧ ∀ own, (∀ n ∈ part.names, source.Settled n) →
      Owns visiting s own part.leading → Settles source own part s.rest result.1 := by
  induction h with
  | literal visiting text s memo => exact ⟨ready.settled, fun own _ _ => .literal text s.rest⟩
  | range visiting first last s memo =>
    exact ⟨ready.settled, fun own _ _ => .range first last s.rest⟩
  | name _ ih => exact (ih ready).imp_right fun f own quiet owns => .name (f own quiet owns)
  | sequence _ ih => exact (ih ready).imp_right fun f own quiet owns => .sequence (f own quiet owns)
  | alternative _ ih => exact (ih ready).imp_right fun f own quiet owns => .alternative (f own quiet owns)
  | group _ ih => exact (ih ready).imp_right fun f own quiet owns => .group (f own quiet owns)
  | option _ ih => exact (ih ready).imp_right fun f own quiet owns => .option (f own quiet owns)
  | repetition _ ih => exact (ih ready).imp_right fun f own quiet owns => .repetition (f own quiet owns)
  | @known visiting name s memo n found =>
    refine ⟨ready.settled, fun own quiet owns => ?_⟩
    have length := ready.settled _ n (quiet name List.mem_cons_self) found
    rw [← show s.rest = whole.drop s.offset from ready.here] at length
    apply length.of_none
    intro isOwn
    have unknown := ready.absent _ ((owns name List.mem_cons_self).mpr isOwn)
    rw [found] at unknown
    cases unknown
  | @cycle visiting name s memo unknown active =>
    refine ⟨ready.settled, fun own quiet owns => ?_⟩
    rw [(owns name List.mem_cons_self).mp (List.contains_iff_mem.mp active)]
    exact .barred name s.rest
  | @missing visiting name s memo unknown isNew undefined =>
    refine ⟨ready.settled.cons ready.here fun _ => ?_, fun own quiet owns => ?_⟩
    · exact .missing (Option.some_ne_none name).symm undefined s.rest
    · refine .missing (fun isOwn => ?_) undefined s.rest
      exact ne_of_isNew isNew ((owns name List.mem_cons_self).mpr isOwn) rfl
  | @production visiting name body s memo memo' n unknown isNew defined h ih =>
    obtain ⟨settled, lengths⟩ := ih (ready.visit unknown defined)
    have length : source.Settled name → Settles source (some name) (.expr body) s.rest n := by
      intro quiet
      refine lengths (some name) (fun m used => ?_) (ready.owns_visit defined quiet)
      exact quiet.of_reaches (.single ⟨body, defined, used⟩)
    refine ⟨settled.cons ready.here fun quiet => ?_, fun own quiet owns => ?_⟩
    · exact .production (Option.some_ne_none name).symm defined (length quiet)
    · refine .production (fun isOwn => ?_) defined (length (quiet name List.mem_cons_self))
      exact ne_of_isNew isNew ((owns name List.mem_cons_self).mpr isOwn) rfl
  | done visiting total s memo => exact ⟨ready.settled, fun own _ _ => .done total s.rest⟩
  | failed first fail ih =>
    refine (ih (ready.fewer (List.subset_append_left _ _))).imp_right fun f own quiet owns => ?_
    have quiet := (Part.forall_names_sequence quiet 0).1
    exact .failed (f own quiet (owns.fewer (List.subset_append_left _ _))) fail
  | @next visiting total n x items s memo memo' result first passed others ih ih' =>
    obtain ⟨settled, length⟩ := ih (ready.fewer (List.subset_append_left _ _))
    obtain ⟨ready', owns'⟩ := ready.next first settled passed
    obtain ⟨settled', length'⟩ := ih' ready'
    refine ⟨settled', fun own quiet owns => ?_⟩
    have ⟨quiet, quiet'⟩ := Part.forall_names_sequence quiet (total + n)
    refine .next (length own quiet (owns.fewer (List.subset_append_left _ _))) passed ?_
    rw [← Spot.rest_advance]
    exact length' _ quiet' (owns' own owns)
  | noChoice visiting s memo => exact ⟨ready.settled, fun own _ _ => .noChoice s.rest⟩
  | choice first others ih ih' =>
    obtain ⟨settled, length⟩ := ih (ready.fewer (List.subset_append_left _ _))
    obtain ⟨settled', length'⟩ := ih' (ready.after first settled (List.subset_append_right _ _))
    refine ⟨settled', fun own quiet owns => ?_⟩
    have ⟨quiet, quiet'⟩ := Part.forall_names_longest quiet
    exact .choice (length own quiet (owns.fewer (List.subset_append_left _ _)))
      (length' own quiet' (owns.fewer (List.subset_append_right _ _)))
  | @again visiting body n total s memo memo' memo'' first more others ih ih' =>
    obtain ⟨settled, length⟩ := ih ready
    obtain ⟨ready', owns'⟩ := ready.advance first settled more.1 body.leading
    obtain ⟨settled', length'⟩ := ih' ready'
    refine ⟨settled', fun own quiet owns => .again (length own quiet owns) more.1 ?_⟩
    rw [← Spot.rest_advance]
    exact length' none quiet owns'
  | @once visiting body n s memo memo' first stop ih =>
    refine (ih ready).imp_right fun f own quiet owns => ?_
    -- at the end of the text nothing is left to match
    have zero : n = 0 := by
      have within : n ≤ s.rest.length := first.le_length ready.here ready.sound
      rw [← List.length_pos_iff] at stop
      omega
    subst zero
    exact .stop (f own quiet owns)

/-! ## Two runs -/

/-- Two memories agree on the names in a set that are not settled. -/
def Memo.Agree (source : Source) (S : Bytes → Prop) (memo memo' : Memo) : Prop :=
  ∀ key, S key.name → ¬ source.Settled key.name → memo.find? key = memo'.find? key

variable {memo' : Memo} {result' : Nat × Memo} {S : Bytes → Prop}

/-- Both runs find the length of a settled name, and remember nothing of other names. -/
theorem Matches.agree_of_settled {name : Bytes} (settled : source.Settled name)
    (h : Matches source visiting (.name name) s memo result)
    (h' : Matches source visiting (.name name) s memo' result')
    (ready : Ready source whole visiting s memo [name])
    (ready' : Ready source whole visiting s memo' [name]) (agree : Memo.Agree source S memo memo') :
    result.1 = result'.1 ∧ Memo.Agree source S result.2 result'.2 := by
  constructor
  · have quiet : ∀ n ∈ (Part.name name).names, source.Settled n := List.forall_mem_singleton.mpr settled
    by_cases active : (⟨name, s.offset⟩ : Key) ∈ visiting
    · have owns : Owns visiting s (some name) [name] :=
        List.forall_mem_singleton.mpr (iff_of_true active rfl)
      exact ((h.settles ready).2 _ quiet owns).unique ((h'.settles ready').2 _ quiet owns)
    · have owns : Owns visiting s none [name] :=
        List.forall_mem_singleton.mpr (iff_of_false active (Option.some_ne_none name).symm)
      exact ((h.settles ready).2 _ quiet owns).unique ((h'.settles ready').2 _ quiet owns)
  · intro key inside unsettled
    have unreached : ∀ n ∈ (Part.name name).names, ¬ source.Reaches n key.name :=
      List.forall_mem_singleton.mpr fun reaches => unsettled (settled.of_reaches reaches)
    rw [h.find?_of_unreached unreached, h'.find?_of_unreached unreached]
    exact agree key inside unsettled

theorem Memo.Agree.cons (agree : Memo.Agree source S memo memo') (key : Key) (n : Nat) :
    Memo.Agree source S ((key, n) :: memo) ((key, n) :: memo') := by
  intro other inside unsettled
  by_cases same : key = other
  · rw [same, Memo.find?, Memo.find?, if_pos ⟨rfl, rfl⟩, if_pos ⟨rfl, rfl⟩]
  · rw [Memo.find?_cons_of_ne n same, Memo.find?_cons_of_ne n same]
    exact agree other inside unsettled

/-- Both runs take the same way at a name, and find the same length if they do so in its production. -/
theorem Matches.agree_of_name {name : Bytes} (h : Matches source visiting (.name name) s memo result)
    (h' : Matches source visiting (.name name) s memo' result')
    (ready : Ready source whole visiting s memo [name])
    (ready' : Ready source whole visiting s memo' [name]) (inside : S name)
    (agree : Memo.Agree source S memo memo')
    (inner : ∀ {body : Expr} {r r' : Nat × Memo}, source.body? name = some body →
      visiting.contains ⟨name, s.offset⟩ = false →
      Ready source whole (⟨name, s.offset⟩ :: visiting) s memo body.leading →
      Ready source whole (⟨name, s.offset⟩ :: visiting) s memo' body.leading →
      Matches source (⟨name, s.offset⟩ :: visiting) (.expr body) s memo r →
      Matches source (⟨name, s.offset⟩ :: visiting) (.expr body) s memo' r' →
      r.1 = r'.1 ∧ Memo.Agree source S r.2 r'.2) :
    result.1 = result'.1 ∧ Memo.Agree source S result.2 result'.2 := by
  by_cases settled : source.Settled name
  · exact h.agree_of_settled settled h' ready ready' agree
  have same := agree ⟨name, s.offset⟩ inside settled
  cases h with
  | known _ found =>
    cases h' with
    | known _ found' => exact ⟨Option.some.inj (found.symm.trans (same.trans found')), agree⟩
    | cycle unknown | missing unknown | production unknown =>
      rw [same, unknown] at found
      cases found
  | cycle unknown active =>
    cases h' with
    | known _ found =>
      rw [same, found] at unknown
      cases unknown
    | cycle => exact ⟨rfl, agree⟩
    | missing _ isNew | production _ isNew =>
      rw [active] at isNew
      cases isNew
  | missing unknown isNew undefined =>
    cases h' with
    | known _ found =>
      rw [same, found] at unknown
      cases unknown
    | cycle _ active =>
      rw [active] at isNew
      cases isNew
    | missing => exact ⟨rfl, agree.cons _ 0⟩
    | production _ _ defined _ =>
      rw [defined] at undefined
      cases undefined
  | production unknown isNew defined h =>
    cases h' with
    | known _ found =>
      rw [same, found] at unknown
      cases unknown
    | cycle _ active =>
      rw [active] at isNew
      cases isNew
    | missing _ _ undefined =>
      rw [defined] at undefined
      cases undefined
    | production unknown' _ defined' h' =>
      cases defined.symm.trans defined'
      have ⟨length, memory⟩ :=
        inner defined isNew (ready.visit unknown defined) (ready'.visit unknown' defined) h h'
      cases length
      exact ⟨rfl, memory.cons _ _⟩

/-- Runs from memories that agree on all that is reached find the same length, and their memories agree
afterwards. -/
theorem Matches.agree (closed : ∀ a b, S a → source.Uses a b → S b)
    (h : Matches source visiting part s memo result)
    (h' : Matches source visiting part s memo' result')
    (ready : Ready source whole visiting s memo part.leading)
    (ready' : Ready source whole visiting s memo' part.leading) (inside : ∀ n ∈ part.names, S n)
    (agree : Memo.Agree source S memo memo') :
    result.1 = result'.1 ∧ Memo.Agree source S result.2 result'.2 := by
  induction h generalizing memo' result' with
  | literal | range | done | noChoice =>
    cases h'
    exact ⟨rfl, agree⟩
  | name _ ih | sequence _ ih | alternative _ ih | group _ ih | option _ ih | repetition _ ih =>
    cases h' with
    | _ h' => exact ih h' ready ready' inside agree
  | @known visiting name s memo n found =>
    apply (Matches.known visiting found).agree_of_name h' ready ready' (inside name List.mem_cons_self) agree
    intro _ _ _ _ _ lookup
    cases found.symm.trans (lookup.absent _ List.mem_cons_self)
  | @cycle visiting name s memo unknown active =>
    apply (Matches.cycle unknown active).agree_of_name h' ready ready' (inside name List.mem_cons_self) agree
    intro _ _ _ _ isNew
    cases active.symm.trans isNew
  | @missing visiting name s memo unknown isNew undefined =>
    apply (Matches.missing unknown isNew undefined).agree_of_name h' ready ready'
      (inside name List.mem_cons_self) agree
    intro _ _ _ defined
    cases undefined.symm.trans defined
  | @production visiting name body s memo memo₁ n unknown isNew defined h ih =>
    have named := inside name List.mem_cons_self
    apply (Matches.production unknown isNew defined h).agree_of_name h' ready ready' named agree
    intro body' r r' defined' _ lookup lookup' first first'
    cases defined.symm.trans defined'
    cases h.unique first
    exact ih first' lookup lookup' (fun m used => closed name m named ⟨body, defined, used⟩) agree
  | failed first fail ih =>
    have lead := ready.fewer (List.subset_append_left _ _)
    have lead' := ready'.fewer (List.subset_append_left _ _)
    have inside := (Part.forall_names_sequence inside 0).1
    cases h' with
    | failed first' =>
      exact ⟨rfl, (ih first' lead lead' inside agree).2⟩
    | next first' passed _ =>
      have length := (ih first' lead lead' inside agree).1
      cases length
      exact absurd fail passed
  | @next visiting total n x items s memo memo₁ result first passed others ih ih' =>
    have lead := ready.fewer (List.subset_append_left _ _)
    have lead' := ready'.fewer (List.subset_append_left _ _)
    have ⟨inside, inside'⟩ := Part.forall_names_sequence inside (total + n)
    cases h' with
    | failed first' fail =>
      have length := (ih first' lead lead' inside agree).1
      cases length
      exact absurd fail passed
    | next first' _ others' =>
      have ⟨length, memory⟩ := ih first' lead lead' inside agree
      cases length
      exact ih' others' (ready.next first (first.settles lead).1 passed).1
        (ready'.next first' (first'.settles lead').1 passed).1 inside' memory
  | choice first others ih ih' =>
    have lead := ready.fewer (List.subset_append_left _ _)
    have lead' := ready'.fewer (List.subset_append_left _ _)
    have ⟨inside, inside'⟩ := Part.forall_names_longest inside
    cases h' with
    | choice first' others' =>
      have ⟨length, memory⟩ := ih first' lead lead' inside agree
      have ⟨best, memory'⟩ := ih' others'
        (ready.after first (first.settles lead).1 (List.subset_append_right _ _))
        (ready'.after first' (first'.settles lead').1 (List.subset_append_right _ _)) inside' memory
      cases length
      cases best
      exact ⟨rfl, memory'⟩
  | again first more others ih ih' =>
    cases h' with
    | again first' _ others' =>
      have ⟨length, memory⟩ := ih first' ready ready' inside agree
      cases length
      have ⟨total, memory'⟩ := ih' others'
        (ready.advance first (first.settles ready).1 more.1 _).1
        (ready'.advance first' (first'.settles ready').1 more.1 _).1 inside memory
      cases total
      exact ⟨rfl, memory'⟩
    | once first' stop =>
      have length := (ih first' ready ready' inside agree).1
      cases length
      exact absurd more stop
  | once first stop ih =>
    cases h' with
    | again first' more _ =>
      have length := (ih first' ready ready' inside agree).1
      cases length
      exact absurd more stop
    | once first' _ => exact ih first' ready ready' inside agree

end Lexer

end GrammarCompletion
