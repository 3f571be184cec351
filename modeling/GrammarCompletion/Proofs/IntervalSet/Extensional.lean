import GrammarCompletion.Completion.FollowSets
import GrammarCompletion.Proofs.IntervalSet.Canonical
import GrammarCompletion.Proofs.Text.Decimal

/-!
# Sets are determined by their members

No two canonical sets have the same members, and no two sets have the same text. Adding a set to another
one adds its members, so a set that is put together from others depends only on which sets take part: not
on their order, not on how they are grouped, and not on how often each of them is added. The union of
follow sets is an instance.
-/

namespace GrammarCompletion

/-! ## Texts -/

namespace Interval

/-- What follows the lower bound in the text of a range: dots and the upper bound, unless both are the
same. -/
def ending (r : Interval) : Bytes :=
  if r.lo = r.hi then [] else 0x2E :: 0x2E :: Bytes.ofInt r.hi.toInt

theorem text_eq (r : Interval) : r.text = Bytes.ofInt r.lo.toInt ++ r.ending := by
  unfold text ending
  split
  · rw [List.append_nil]
  · rw [List.append_assoc]
    rfl

theorem startsWith_ending (r : Interval) : Bytes.StartsWith 0x2E r.ending := by
  unfold ending
  split
  · exact .inl rfl
  · exact .inr ⟨_, rfl⟩

theorem hi_eq_of_ending {r q : Interval} (lower : r.lo = q.lo) (same : r.ending = q.ending) :
    r.hi = q.hi := by
  unfold ending at same
  split at same
  · next point =>
    split at same
    · next point' => rw [← point, ← point', lower]
    · cases same
  · split at same
    · cases same
    · rw [List.cons.injEq, List.cons.injEq] at same
      exact Int64.toInt_inj.mp (Bytes.ofInt_inj.mp same.2.2)

theorem text_inj {r q : Interval} : r.text = q.text ↔ r = q := by
  refine ⟨fun same => ?_, congrArg text⟩
  have dot : ¬ Bytes.IsNumeral 0x2E := by decide
  rw [text_eq, text_eq] at same
  obtain ⟨first, last⟩ := Bytes.append_inj_of_startsWith (Bytes.not_mem_ofInt dot _)
    (Bytes.not_mem_ofInt dot _) (startsWith_ending r) (startsWith_ending q) same
  have lower : r.lo = q.lo := Int64.toInt_inj.mp (Bytes.ofInt_inj.mp first)
  have upper : r.hi = q.hi := hi_eq_of_ending lower last
  calc
    r = ⟨r.lo, r.hi⟩ := rfl
    _ = ⟨q.lo, q.hi⟩ := by rw [lower, upper]

theorem text_ne_nil (r : Interval) : r.text ≠ [] := by
  rw [text_eq]
  exact List.append_ne_nil_of_left_ne_nil (Bytes.ofInt_ne_nil _) _

theorem comma_not_mem_text (r : Interval) : 0x2C ∉ r.text := by
  have comma : ¬ Bytes.IsNumeral 0x2C := by decide
  rw [text_eq, List.mem_append, not_or]
  refine ⟨Bytes.not_mem_ofInt comma _, ?_⟩
  unfold ending
  split
  · exact List.not_mem_nil
  · rw [List.mem_cons, List.mem_cons, not_or, not_or]
    exact ⟨by decide, by decide, Bytes.not_mem_ofInt comma _⟩

end Interval

namespace IntervalSet

theorem text_inj {s t : IntervalSet} : s.text = t.text ↔ s = t := by
  refine ⟨fun same => ?_, congrArg text⟩
  have free : ∀ s : IntervalSet, ∀ part ∈ s.ranges.map Interval.text, 0x2C ∉ part := by
    intro s part member
    obtain ⟨r, -, rfl⟩ := List.mem_map.mp member
    exact r.comma_not_mem_text
  have filled : ∀ s : IntervalSet, [] ∉ s.ranges.map Interval.text := by
    intro s member
    obtain ⟨r, -, blank⟩ := List.mem_map.mp member
    exact r.text_ne_nil blank
  have inner : Bytes.join (0x2C :: [0x20]) (s.ranges.map Interval.text) =
      Bytes.join (0x2C :: [0x20]) (t.ranges.map Interval.text) :=
    List.append_cancel_left (List.append_cancel_right same)
  have parts : s.ranges.map Interval.text = t.ranges.map Interval.text :=
    Bytes.join_inj (free s) (free t) (filled s) (filled t) inner
  have ranges : s.ranges = t.ranges :=
    List.map_injective_iff.mpr (fun _ _ => Interval.text_inj.mp) parts
  calc
    s = ⟨s.ranges⟩ := rfl
    _ = ⟨t.ranges⟩ := by rw [ranges]

/-! ## Members -/

section
variable {s t : IntervalSet} {r : Interval} {rs : List Interval}

/-- The members behind the first range are those above it. -/
theorem Canonical.mem_rest_iff (h : Canonical ⟨r :: rs⟩) {v : Int64} :
    v ∈ (⟨rs⟩ : IntervalSet) ↔ v ∈ (⟨r :: rs⟩ : IntervalSet) ∧ r.hi < v := by
  obtain ⟨-, before, -⟩ := h.cons
  constructor
  · rintro ⟨q, member, covers⟩
    exact ⟨⟨q, List.mem_cons_of_mem r member, covers⟩,
      Int64.lt_of_lt_of_le (before q member).1 covers.1⟩
  · rintro ⟨⟨q, member, covers⟩, above⟩
    rcases List.mem_cons.mp member with rfl | member
    · exact absurd covers.2 (Int64.not_le.mpr above)
    · exact ⟨q, member, covers⟩

theorem Canonical.lo_le (h : Canonical ⟨r :: rs⟩) {v : Int64} (member : v ∈ (⟨r :: rs⟩ : IntervalSet)) :
    r.lo ≤ v := by
  obtain ⟨proper, -, -⟩ := h.cons
  by_cases above : r.hi < v
  · exact Int64.le_trans proper (Int64.le_of_lt above)
  · obtain ⟨q, listed, covers⟩ := member
    rcases List.mem_cons.mp listed with rfl | listed
    · exact covers.1
    · exact absurd (h.mem_rest_iff.mp ⟨q, listed, covers⟩).2 above

theorem Canonical.succ_not_mem (h : Canonical ⟨r :: rs⟩) {w : Int64} (below : r.hi < w) :
    ¬ r.hi + 1 ∈ (⟨r :: rs⟩ : IntervalSet) := by
  obtain ⟨-, before, -⟩ := h.cons
  have next := toInt_succ below
  have above : r.hi < r.hi + 1 := by
    rw [Int64.lt_iff_toInt_lt]
    omega
  intro member
  obtain ⟨q, listed, covers⟩ := h.mem_rest_iff.mpr ⟨member, above⟩
  exact Int64.not_le.mpr (before q listed).2 covers.1

/-- The first range ends no earlier than that of a set with the same members. -/
theorem Canonical.hi_le {q : Interval} {qs : List Interval} (h : Canonical ⟨r :: rs⟩)
    (start : r.lo = q.lo)
    (same : ∀ v, v ∈ (⟨r :: rs⟩ : IntervalSet) ↔ v ∈ (⟨q :: qs⟩ : IntervalSet)) : q.hi ≤ r.hi := by
  by_cases longer : r.hi < q.hi
  · -- the other range goes on behind this one
    have next := toInt_succ longer
    have proper := h.cons.1
    have inside : q.Covers (r.hi + 1) := by
      rw [Int64.le_iff_toInt_le] at proper
      rw [Int64.lt_iff_toInt_lt] at longer
      rw [Interval.Covers, Int64.le_iff_toInt_le, Int64.le_iff_toInt_le, ← start]
      omega
    exact absurd ((same _).mpr ⟨q, List.mem_cons_self, inside⟩) (h.succ_not_mem longer)
  · exact Int64.not_lt.mp longer

theorem Canonical.eq_of_members (h : s.Canonical) (h' : t.Canonical) (same : ∀ v, v ∈ s ↔ v ∈ t) :
    s = t := by
  obtain ⟨rs⟩ := s
  obtain ⟨qs⟩ := t
  -- the first ranges agree in both bounds, and so do the members behind them
  induction rs generalizing qs with
  | nil =>
    cases qs with
    | nil => rfl
    | cons q qs =>
      have first : q.lo ∈ (⟨q :: qs⟩ : IntervalSet) := ⟨q, List.mem_cons_self, Int64.le_refl _, h'.cons.1⟩
      exact absurd ((same q.lo).mpr first) (not_mem_empty q.lo)
  | cons r rs ih =>
    have first : r.lo ∈ (⟨r :: rs⟩ : IntervalSet) := ⟨r, List.mem_cons_self, Int64.le_refl _, h.cons.1⟩
    cases qs with
    | nil => exact absurd ((same r.lo).mp first) (not_mem_empty r.lo)
    | cons q qs =>
      have first' : q.lo ∈ (⟨q :: qs⟩ : IntervalSet) := ⟨q, List.mem_cons_self, Int64.le_refl _, h'.cons.1⟩
      have lower : r.lo = q.lo :=
        Int64.le_antisymm (h.lo_le ((same q.lo).mpr first')) (h'.lo_le ((same r.lo).mp first))
      have upper : r.hi = q.hi :=
        Int64.le_antisymm (h'.hi_le lower.symm fun v => (same v).symm) (h.hi_le lower same)
      have rest : (⟨rs⟩ : IntervalSet) = ⟨qs⟩ := by
        apply ih h.cons.2.2 qs h'.cons.2.2
        intro v
        rw [h.mem_rest_iff, h'.mem_rest_iff, same v, upper]
      calc
        (⟨r :: rs⟩ : IntervalSet) = ⟨⟨r.lo, r.hi⟩ :: rs⟩ := rfl
        _ = ⟨⟨q.lo, q.hi⟩ :: qs⟩ := by rw [lower, upper, IntervalSet.mk.inj rest]

theorem Canonical.eq_iff_contains (h : s.Canonical) (h' : t.Canonical) :
    s = t ↔ ∀ v, s.contains v = t.contains v := by
  constructor
  · rintro rfl v
    rfl
  · intro same
    apply h.eq_of_members h'
    intro v
    rw [← contains_iff_mem h, ← contains_iff_mem h', same v]

end

/-! ## Sets put together -/

/-- The set is canonical, and all bounds of its ranges have neighbours. -/
structure Inner (s : IntervalSet) : Prop where
  canonical : s.Canonical
  bounded : s.Bounded

theorem Inner.union {s t : IntervalSet} (h : s.Inner) (h' : t.Inner) : (s.union t).Inner := by
  obtain ⟨canonical, members⟩ := union_spec h.canonical h'.bounded
  refine ⟨canonical, fun v member => ?_⟩
  rcases (members v).mp member with here | there
  · exact h.bounded v here
  · exact h'.bounded v there

theorem Inner.mem_union {s t : IntervalSet} (h : s.Inner) (h' : t.Inner) (v : Int64) :
    v ∈ s.union t ↔ v ∈ s ∨ v ∈ t :=
  (union_spec h.canonical h'.bounded).2 v

theorem Slot.union_some (s : IntervalSet) (other : Slot) :
    Slot.union (some s) other = .ok (some (s.union other.read)) := by
  unfold Slot.union IntervalSet.union
  generalize other.read.ranges = rs
  induction rs generalizing s with
  | nil => rfl
  | cons r rs ih => exact ih (s.insertRange r.lo r.hi)

/-- A way to put sets together. It starts with a set; what is added is a set that is there, an empty
place, or what has itself been put together. -/
inductive Gathering where
  | start (s : IntervalSet)
  | add (into : Gathering) (slot : Slot)
  | addAll (into other : Gathering)

namespace Gathering

def result : Gathering → Except Absent Slot
  | .start s => .ok (some s)
  | .add into slot => do Slot.union (← into.result) slot
  | .addAll into other => do Slot.union (← into.result) (← other.result)

/-- The sets that take part, as often as they do. An empty place counts as the empty set. -/
def sets : Gathering → List IntervalSet
  | .start s => [s]
  | .add into slot => into.sets ++ [slot.read]
  | .addAll into other => into.sets ++ other.sets

/-- Nothing is ever added to an empty place, and all members of all sets are gathered. -/
theorem exists_result {g : Gathering} (inner : ∀ s ∈ g.sets, s.Inner) :
    ∃ s, g.result = .ok (some s) ∧ s.Inner ∧ ∀ v, v ∈ s ↔ ∃ t ∈ g.sets, v ∈ t := by
  induction g with
  | start s =>
    refine ⟨s, rfl, inner s List.mem_cons_self, fun v => ?_⟩
    simp [sets]
  | add into slot ih =>
    rw [sets, List.forall_mem_append, List.forall_mem_singleton] at inner
    obtain ⟨s, found, before, members⟩ := ih inner.1
    refine ⟨s.union slot.read, ?_, before.union inner.2, fun v => ?_⟩
    · rw [result, found]
      exact Slot.union_some s slot
    · rw [before.mem_union inner.2, members]
      simp [sets, or_and_right, exists_or]
  | addAll into other ih ih' =>
    rw [sets, List.forall_mem_append] at inner
    obtain ⟨s, found, before, members⟩ := ih inner.1
    obtain ⟨t, found', before', members'⟩ := ih' inner.2
    refine ⟨s.union t, ?_, before.union before', fun v => ?_⟩
    · rw [result, found, found']
      exact Slot.union_some s (some t)
    · rw [before.mem_union before', members, members']
      simp [sets, or_and_right, exists_or]

/-- What is gathered depends only on the sets that take part and are not empty. -/
theorem result_eq {g g' : Gathering} (inner : ∀ s ∈ g.sets, s.Inner)
    (same : ∀ s ≠ empty, s ∈ g.sets ↔ s ∈ g'.sets) :
    ∃ s, g.result = .ok (some s) ∧ g'.result = .ok (some s) := by
  have inner' : ∀ s ∈ g'.sets, s.Inner := by
    intro s listed
    by_cases blank : s = empty
    · rw [blank]
      exact ⟨canonical_empty, bounded_empty⟩
    · exact inner s ((same s blank).mpr listed)
  obtain ⟨s, found, before, members⟩ := exists_result inner
  obtain ⟨s', found', before', members'⟩ := exists_result inner'
  have agree : s = s' := by
    apply before.canonical.eq_of_members before'.canonical
    intro v
    rw [members, members']
    have filled : ∀ t : IntervalSet, v ∈ t → t ≠ empty := by
      rintro t member rfl
      exact not_mem_empty v member
    constructor
    · rintro ⟨t, listed, member⟩
      exact ⟨t, (same t (filled t member)).mp listed, member⟩
    · rintro ⟨t, listed, member⟩
      exact ⟨t, (same t (filled t member)).mpr listed, member⟩
  exact ⟨s, found, agree ▸ found'⟩

def ofList (sets : List IntervalSet) : Gathering := sets.foldl (fun g s => g.add (some s)) (start empty)

theorem sets_ofList (sets : List IntervalSet) : (ofList sets).sets = empty :: sets := by
  suffices added : ∀ g : Gathering, (sets.foldl (fun g s => g.add (some s)) g).sets = g.sets ++ sets from
    added (start empty)
  induction sets with
  | nil => exact fun g => (List.append_nil _).symm
  | cons s sets ih =>
    intro g
    rw [List.foldl_cons, ih, Gathering.sets, List.append_assoc]
    rfl

theorem result_ofList (sets : List FollowSet) :
    (ofList (sets.map FollowSet.symbols)).result = .ok (some (FollowSets.ofSets sets).combined) := by
  suffices added : ∀ (g : Gathering) (s : IntervalSet), g.result = .ok (some s) →
      ((sets.map FollowSet.symbols).foldl (fun g s => g.add (some s)) g).result =
        .ok (some (sets.foldl (fun all set => all.union set.symbols) s)) from
    added (start empty) empty rfl
  induction sets with
  | nil => exact fun g s found => found
  | cons set sets ih =>
    intro g s found
    apply ih
    rw [result, found]
    exact Slot.union_some s (some set.symbols)

end Gathering

/-- Canonical sets are determined by their members and by their texts, where an empty place counts as the
empty set. Hence what is gathered from sets whose bounds have neighbours depends only on which of them take
part, and the union of follow sets does not depend on the order in which they were recorded. -/
theorem canonical_sets_extensional :
    (∀ a b : Slot, a.read.Canonical → b.read.Canonical →
      (a.read = b.read ↔ ∀ v, a.read.contains v = b.read.contains v) ∧
        (a.read.text = b.read.text ↔ a.read = b.read)) ∧
    (∀ g g' : Gathering, (∀ s ∈ g.sets, s.Inner) → (∀ s ≠ empty, s ∈ g.sets ↔ s ∈ g'.sets) →
      ∃ s, g.result = .ok (some s) ∧ g'.result = .ok (some s)) ∧
    ∀ sets sets' : List FollowSet, (∀ set ∈ sets, set.symbols.Inner) →
      (∀ s, s ∈ sets.map FollowSet.symbols ↔ s ∈ sets'.map FollowSet.symbols) →
      (FollowSets.ofSets sets).combined = (FollowSets.ofSets sets').combined := by
  refine ⟨fun a b h h' => ⟨h.eq_iff_contains h', text_inj⟩, fun g g' => Gathering.result_eq, ?_⟩
  intro sets sets' inner same
  have gathered : ∀ s ∈ (Gathering.ofList (sets.map FollowSet.symbols)).sets, s.Inner := by
    rw [Gathering.sets_ofList, List.forall_mem_cons, List.forall_mem_map]
    exact ⟨⟨canonical_empty, bounded_empty⟩, inner⟩
  have listed : ∀ s ≠ empty, s ∈ (Gathering.ofList (sets.map FollowSet.symbols)).sets ↔
      s ∈ (Gathering.ofList (sets'.map FollowSet.symbols)).sets := by
    intro s _
    rw [Gathering.sets_ofList, Gathering.sets_ofList, List.mem_cons, List.mem_cons, same s]
  obtain ⟨s, found, found'⟩ := Gathering.result_eq gathered listed
  rw [Gathering.result_ofList] at found found'
  exact Option.some.inj (Except.ok.inj (found.trans found'.symm))

/-- Negative symbols and a single one. -/
def scattered : IntervalSet := (range (-3) (-1)).insert 5

/-- The symbols that bridge the gap between them, and a further one. -/
def bridging : IntervalSet := (range 0 4).insert 7

/-- The second set is added to the first one, which is added to what the second one started. -/
def regrouped : Gathering :=
  .addAll ((Gathering.start bridging).add none) ((Gathering.start scattered).add (some bridging))

theorem canonical_sets_extensional_bridging :
    scattered.Inner ∧ bridging.Inner ∧
    scattered.text = ("\x7b-3..-1, 5\x7d" : Bytes) ∧ scattered.text ≠ bridging.text ∧
    (¬ ∀ v, scattered.contains v = bridging.contains v) ∧
    (Gathering.ofList [scattered, bridging, scattered]).result = .ok (some ⟨[⟨-3, 5⟩, ⟨7, 7⟩]⟩) ∧
    regrouped.result = .ok (some ⟨[⟨-3, 5⟩, ⟨7, 7⟩]⟩) ∧
    (FollowSets.ofSets [⟨scattered, [1], []⟩, ⟨bridging, [], []⟩]).combined =
      (FollowSets.ofSets [⟨bridging, [], []⟩, ⟨scattered, [1], []⟩]).combined := by
  have first : scattered.Inner := by
    have built : Built scattered := .insert (.range (by decide) (by decide)) (by decide) (by decide)
    exact ⟨built.canonical_bounded.1, built.canonical_bounded.2⟩
  have second : bridging.Inner := by
    have built : Built bridging := .insert (.range (by decide) (by decide)) (by decide) (by decide)
    exact ⟨built.canonical_bounded.1, built.canonical_bounded.2⟩
  obtain ⟨alike, grouped, ordered⟩ := canonical_sets_extensional
  obtain ⟨members, texts⟩ := alike (some scattered) (some bridging) first.canonical second.canonical
  have differ : scattered ≠ bridging := by decide
  have gathered : (Gathering.ofList [scattered, bridging, scattered]).result =
      .ok (some ⟨[⟨-3, 5⟩, ⟨7, 7⟩]⟩) := rfl
  have inner : ∀ s ∈ (Gathering.ofList [scattered, bridging, scattered]).sets, s.Inner := by
    rw [Gathering.sets_ofList]
    simp only [List.forall_mem_cons]
    exact ⟨⟨canonical_empty, bounded_empty⟩, first, second, first, List.forall_mem_nil _⟩
  have same : ∀ s ≠ empty, s ∈ (Gathering.ofList [scattered, bridging, scattered]).sets ↔
      s ∈ regrouped.sets := by
    intro s filled
    rw [Gathering.sets_ofList, show regrouped.sets = [bridging, empty, scattered, bridging] from rfl]
    simp only [List.mem_cons, List.not_mem_nil, filled, false_or, or_false]
    grind
  obtain ⟨s, found, found'⟩ := grouped _ regrouped inner same
  refine ⟨first, second, by decide +kernel, fun same => differ (texts.mp same),
    fun same => differ (members.mpr same), gathered, by rw [found', ← found, gathered],
    ordered _ _ ?_ ?_⟩
  · simp only [List.forall_mem_cons]
    exact ⟨first, second, List.forall_mem_nil _⟩
  · intro s
    simp [or_comm]

end IntervalSet

end GrammarCompletion
