import GrammarCompletion.IntervalSet.Basic

/-!
# Members of range sets

A symbol is a member of a set if one of the ranges covers it. In a canonical set the ranges are
sorted with a gap between any two of them. There the binary search finds exactly the members, and
adding a range adds exactly the symbols that it covers, as long as its bounds have neighbours.
-/

namespace GrammarCompletion

namespace Interval

def Covers (r : Interval) (v : Int64) : Prop := r.lo ≤ v ∧ v ≤ r.hi

/-- The range ends before the other one starts, with at least one symbol between them. -/
def Before (r s : Interval) : Prop := r.hi < s.lo ∧ r.hi + 1 < s.lo

theorem mem_valuesUpTo {count : Nat} {last v : Int64} {later : List Int64} :
    v ∈ valuesUpTo count last later ↔
      (∃ k : Nat, k < count ∧ v = last - Int64.ofNat k) ∨ v ∈ later := by
  induction count generalizing last later with
  | zero => simp [valuesUpTo]
  | succ count ih =>
    rw [valuesUpTo, ih, List.mem_cons]
    constructor
    · rintro (⟨k, hk, rfl⟩ | rfl | h)
      · refine .inl ⟨k + 1, by omega, ?_⟩
        rw [Int64.ofNat_add]
        grind
      · exact .inl ⟨0, by omega, by simp⟩
      · exact .inr h
    · rintro (⟨k, hk, rfl⟩ | h)
      · cases k with
        | zero => simp
        | succ k =>
          refine .inl ⟨k, by omega, ?_⟩
          rw [Int64.ofNat_add]
          grind
      · exact .inr (.inr h)

theorem toInt_sub_ofNat {lo hi : Int64} {k : Nat} (h : lo.toInt ≤ hi.toInt - k) :
    (hi - Int64.ofNat k).toInt = hi.toInt - k := by
  have hlo := Int64.le_toInt lo
  have hhi := Int64.toInt_lt hi
  rw [Int64.toInt_sub, Int64.toInt_ofNat', Int64.size]
  rw [Int.sub_bmod_bmod]
  rw [Int.bmod_eq_of_le] <;> simp <;> omega

theorem mem_valuesBefore {r : Interval} {v : Int64} {later : List Int64} :
    v ∈ r.valuesBefore later ↔ r.Covers v ∨ v ∈ later := by
  rw [valuesBefore, mem_valuesUpTo]
  refine or_congr_left ?_
  simp only [Covers, Int64.le_iff_toInt_le]
  constructor
  · rintro ⟨k, hk, rfl⟩
    have := @toInt_sub_ofNat r.lo r.hi k (by omega)
    omega
  · rintro ⟨hlo, hhi⟩
    refine ⟨(r.hi.toInt - v.toInt).toNat, by omega, Int64.toInt_inj.mp ?_⟩
    rw [@toInt_sub_ofNat r.lo r.hi _ (by omega)]
    omega

end Interval

namespace IntervalSet

instance : Membership Int64 IntervalSet := ⟨fun s v => ∃ r ∈ s.ranges, r.Covers v⟩

theorem mem_iff {s : IntervalSet} {v : Int64} : v ∈ s ↔ ∃ r ∈ s.ranges, r.Covers v := Iff.rfl

@[simp] theorem not_mem_empty (v : Int64) : ¬ v ∈ empty := by simp [mem_iff, empty]

@[simp] theorem mem_singleton {v x : Int64} : x ∈ singleton v ↔ x = v := by
  simp only [mem_iff, singleton, List.mem_singleton, exists_eq_left, Interval.Covers]
  grind

theorem mem_elements {s : IntervalSet} {v : Int64} : v ∈ s.elements ↔ v ∈ s := by
  obtain ⟨rs⟩ := s
  induction rs with
  | nil => simp [elements, mem_iff]
  | cons r rs ih =>
    have step : (IntervalSet.mk (r :: rs)).elements = r.valuesBefore (IntervalSet.mk rs).elements := rfl
    rw [step, Interval.mem_valuesBefore, ih]
    simp [mem_iff]

/-- The set has a list of all its symbols. -/
def Listable (s : IntervalSet) : Prop := s.values = .ok s.elements

theorem eq_elements_of_values {s : IntervalSet} {symbols : List Int64} (h : s.values = .ok symbols) :
    symbols = s.elements := by
  unfold values at h
  split at h
  · cases h
  · exact (Except.ok.inj h).symm

theorem listable_singleton (v : Int64) : (singleton v).Listable := by
  have one : (singleton v).size = 1 := by simp [size, singleton, Interval.size]
  rw [Listable, values, one]
  rfl

/-- No range is empty, and any two have a gap between them. -/
structure Canonical (s : IntervalSet) : Prop where
  nonempty : ∀ r ∈ s.ranges, r.lo ≤ r.hi
  sorted : s.ranges.Pairwise Interval.Before

theorem canonical_empty : Canonical empty := ⟨by simp [empty], by simp [empty]⟩

theorem canonical_singleton (v : Int64) : Canonical (singleton v) :=
  ⟨by simp [singleton], by simp [singleton]⟩

/-! ## Adding a range -/

/-- The range from `lo` to `hi` touches or overlaps each range of `rs`, or lies before it. -/
structure Reaching (lo hi : Int64) (rs : List Interval) : Prop where
  proper : lo ≤ hi
  bounded : ∀ r ∈ rs, hi < Int64.maxValue
  reach : ∀ r ∈ rs, lo ≤ r.hi ∨ r.hi < lo ∧ lo = r.hi + 1

/-- A range that has absorbed the first range of a list still reaches the others. -/
theorem Reaching.absorb {lo hi : Int64} {r : Interval} {rs : List Interval}
    (h : Reaching lo hi (r :: rs)) (hr : r.lo ≤ r.hi) (hs : ∀ s ∈ rs, r.Before s)
    (hrs : ∀ s ∈ rs, s.lo ≤ s.hi) :
    Reaching (if r.lo < lo then r.lo else lo) (if hi < r.hi then r.hi else hi) rs := by
  have hp := h.proper
  have hb := h.bounded r (by simp)
  constructor
  · grind
  · intro s hm
    have := hs s hm
    grind [Interval.Before]
  · intro s hm
    have := hs s hm
    have := hrs s hm
    grind [Interval.Before]

theorem covers_absorb {lo hi v : Int64} {rs : List Interval} (h : Reaching lo hi rs)
    (hne : ∀ r ∈ rs, r.lo ≤ r.hi) (hs : rs.Pairwise Interval.Before) :
    (∃ r ∈ absorb lo hi rs, r.Covers v) ↔ (lo ≤ v ∧ v ≤ hi) ∨ ∃ r ∈ rs, r.Covers v := by
  induction rs generalizing lo hi with
  | nil => simp [absorb, Interval.Covers]
  | cons r rs ih =>
    rw [List.pairwise_cons] at hs
    rw [List.forall_mem_cons] at hne
    have hb := h.bounded r (by simp)
    have hreach := h.reach r (by simp)
    have hp := h.proper
    rw [absorb]
    split
    · rw [ih (h.absorb hne.1 hs.1 hne.2) hne.2 hs.2]
      simp only [List.mem_cons, or_and_right, exists_or, exists_eq_left]
      grind [Interval.Covers]
    · simp [Interval.Covers]

theorem before_absorb {p : Interval} {lo hi : Int64} {rs : List Interval}
    (hp : p.hi < lo ∧ p.hi + 1 < lo) (hrs : ∀ r ∈ rs, p.Before r) :
    ∀ r ∈ absorb lo hi rs, p.Before r := by
  induction rs generalizing lo hi with
  | nil => simpa [absorb, Interval.Before] using hp
  | cons r rs ih =>
    rw [List.forall_mem_cons] at hrs
    rw [absorb]
    split
    · apply ih _ hrs.2
      split
      · exact hrs.1
      · exact hp
    · simpa [Interval.Before] using ⟨hp, hrs⟩

theorem canonical_absorb {lo hi : Int64} {rs : List Interval} (h : Reaching lo hi rs)
    (hne : ∀ r ∈ rs, r.lo ≤ r.hi) (hs : rs.Pairwise Interval.Before) :
    Canonical ⟨absorb lo hi rs⟩ := by
  induction rs generalizing lo hi with
  | nil => exact ⟨by simpa [absorb] using h.proper, by simp [absorb]⟩
  | cons r rs ih =>
    have hs' := List.pairwise_cons.mp hs
    have hne' := List.forall_mem_cons.mp hne
    have hb := h.bounded r (by simp)
    rw [absorb]
    split
    · exact ih (h.absorb hne'.1 hs'.1 hne'.2) hne'.2 hs'.2
    · rename_i apart
      refine ⟨List.forall_mem_cons.mpr ⟨h.proper, hne⟩, List.pairwise_cons.mpr ⟨?_, hs⟩⟩
      have first : Interval.Before ⟨lo, hi⟩ r := by grind [Interval.Before]
      intro s hm
      rcases List.mem_cons.mp hm with rfl | hm
      · exact first
      · have := hs'.1 s hm
        grind [Interval.Before]

theorem lt_of_lt_pred {least v lo : Int64} (hmin : least < lo) (h : v < lo - 1) :
    v < lo ∧ v + 1 < lo := by
  have hlt : v < lo := by grind
  exact ⟨hlt, by grind⟩

/-- Where a new range goes: behind ranges that end before it with a gap, in front of ranges that
it reaches. -/
theorem Canonical.insertRange_eq {s : IntervalSet} (hs : s.Canonical) {lo hi : Int64}
    (h : lo ≤ hi) (hmin : Int64.minValue < lo) (hmax : hi < Int64.maxValue) :
    ∃ front back, s.ranges = front ++ back ∧
      s.insertRange lo hi = ⟨front ++ absorb lo hi back⟩ ∧
      (∀ p ∈ front, p.hi < lo ∧ p.hi + 1 < lo) ∧ Reaching lo hi back := by
  let early : Interval → Bool := fun r => decide (r.hi < lo - 1)
  refine ⟨s.ranges.takeWhile early, s.ranges.dropWhile early,
    List.takeWhile_append_dropWhile.symm, ?_, ?_, h, fun _ _ => hmax, ?_⟩
  · rw [insertRange, if_neg (by grind)]
  · intro p hp
    have hlt : p.hi < lo - 1 := by
      simpa [early] using List.all_eq_true.mp List.all_takeWhile p hp
    exact lt_of_lt_pred hmin hlt
  · cases hd : s.ranges.dropWhile early with
    | nil => simp
    | cons r rs =>
      have hr : ¬ r.hi < lo - 1 := by
        simpa [hd, early] using List.head?_dropWhile_not early s.ranges
      have hsub : (r :: rs).Sublist s.ranges := hd ▸ List.dropWhile_sublist _
      have hp := List.pairwise_cons.mp (hs.sorted.sublist hsub)
      intro q hq
      rcases List.mem_cons.mp hq with rfl | hm
      · grind
      · have := hp.1 q hm
        have := hs.nonempty q (hsub.subset hq)
        grind [Interval.Before]

theorem mem_insertRange {s : IntervalSet} (hs : s.Canonical) {lo hi v : Int64}
    (hmin : Int64.minValue < lo) (hmax : hi < Int64.maxValue) :
    v ∈ s.insertRange lo hi ↔ v ∈ s ∨ (lo ≤ v ∧ v ≤ hi) := by
  by_cases h : lo ≤ hi
  · obtain ⟨front, back, heq, hins, -, hr⟩ := hs.insertRange_eq h hmin hmax
    have hsub : back.Sublist s.ranges := heq ▸ List.sublist_append_right front back
    have hc := covers_absorb (v := v) hr (fun r hm => hs.nonempty r (hsub.subset hm))
      (hs.sorted.sublist hsub)
    rw [hins, mem_iff, mem_iff, heq]
    simp only [List.mem_append, or_and_right, exists_or, hc]
    grind
  · rw [insertRange, if_pos (by grind)]
    grind

theorem Canonical.insertRange {s : IntervalSet} (hs : s.Canonical) {lo hi : Int64}
    (hmin : Int64.minValue < lo) (hmax : hi < Int64.maxValue) :
    (s.insertRange lo hi).Canonical := by
  by_cases h : lo ≤ hi
  · obtain ⟨front, back, heq, hins, hfront, hr⟩ := hs.insertRange_eq h hmin hmax
    obtain ⟨hne, hsorted⟩ := hs
    rw [heq] at hne hsorted
    rw [List.pairwise_append] at hsorted
    have hc := canonical_absorb hr (fun r hm => hne r (List.mem_append_right front hm)) hsorted.2.1
    rw [hins]
    refine ⟨fun r hm => ?_, List.pairwise_append.mpr ⟨hsorted.1, hc.sorted, fun p hp => ?_⟩⟩
    · rcases List.mem_append.mp hm with hm | hm
      · exact hne r (List.mem_append_left back hm)
      · exact hc.nonempty r hm
    · exact before_absorb (hfront p hp) (hsorted.2.2 p hp)
  · rw [IntervalSet.insertRange, if_pos (by grind)]
    exact hs

def Bounded (s : IntervalSet) : Prop := ∀ v ∈ s, Int64.minValue < v ∧ v < Int64.maxValue

/-- Adding all ranges of a set adds its members. -/
theorem union_spec {s t : IntervalSet} (hs : s.Canonical) (ht : t.Bounded) :
    (s.union t).Canonical ∧ ∀ v, v ∈ s.union t ↔ v ∈ s ∨ v ∈ t := by
  obtain ⟨rs⟩ := t
  induction rs generalizing s with
  | nil => exact ⟨hs, by simp [union, mem_iff]⟩
  | cons r rs ih =>
    have rest : Bounded ⟨rs⟩ := fun v ⟨r', hr', hc⟩ => ht v ⟨r', List.mem_cons_of_mem _ hr', hc⟩
    have added : (s.insertRange r.lo r.hi).Canonical ∧
        ∀ v, v ∈ s.insertRange r.lo r.hi ↔ v ∈ s ∨ r.Covers v := by
      by_cases hr : r.lo ≤ r.hi
      · have hlo := (ht r.lo ⟨r, by simp, by simp, hr⟩).1
        have hhi := (ht r.hi ⟨r, by simp, hr, by simp⟩).2
        exact ⟨hs.insertRange hlo hhi, fun v => mem_insertRange hs hlo hhi⟩
      · have none : s.insertRange r.lo r.hi = s := by
          rw [insertRange, if_pos (by grind)]
        rw [none]
        exact ⟨hs, fun v => by grind [Interval.Covers]⟩
    obtain ⟨canonical, member⟩ := ih added.1 rest
    refine ⟨canonical, fun v => (member v).trans ?_⟩
    rw [added.2 v, or_assoc]
    simp [mem_iff]

/-! ## Searching -/

theorem searchBetween_iff {rs : List Interval} (hne : ∀ r ∈ rs, r.lo ≤ r.hi)
    (hs : rs.Pairwise Interval.Before) (v : Int64) (first last : Nat) (hlast : last ≤ rs.length) :
    searchBetween rs v first last = true ↔
      ∃ i r, first ≤ i ∧ i < last ∧ rs[i]? = some r ∧ r.Covers v := by
  -- The half that is left out lies beyond a range that `v` lies before or behind.
  have apart : ∀ {i j : Nat} {p q : Interval}, i < j → rs[i]? = some p → rs[j]? = some q →
      p.Before q := by
    intro i j p q hij hp hq
    obtain ⟨hi, rfl⟩ := List.getElem?_eq_some_iff.mp hp
    obtain ⟨hj, rfl⟩ := List.getElem?_eq_some_iff.mp hq
    exact List.pairwise_iff_getElem.mp hs i j hi hj hij
  fun_induction searchBetween rs v first last with
  | case1 first last hlt mid hnone =>
    have : rs.length ≤ mid := List.getElem?_eq_none_iff.mp hnone
    omega
  | case2 first last hlt mid r hmid hv ih =>
    refine (ih (by omega)).trans ?_
    constructor
    · rintro ⟨i, q, hf, hi, hq, hc⟩
      exact ⟨i, q, hf, by omega, hq, hc⟩
    · rintro ⟨i, q, hf, hi, hq, hc⟩
      refine ⟨i, q, hf, ?_, hq, hc⟩
      by_cases hle : i < mid
      · exact hle
      · rcases Nat.lt_or_eq_of_le (Nat.not_lt.mp hle) with hgt | rfl
        · have := apart hgt hmid hq
          have := hne r (List.mem_of_getElem? hmid)
          grind [Interval.Covers, Interval.Before]
        · grind [Interval.Covers]
  | case3 first last hlt mid r hmid hv hv' ih =>
    refine (ih hlast).trans ?_
    constructor
    · rintro ⟨i, q, hf, hi, hq, hc⟩
      exact ⟨i, q, by omega, hi, hq, hc⟩
    · rintro ⟨i, q, hf, hi, hq, hc⟩
      refine ⟨i, q, ?_, hi, hq, hc⟩
      by_cases hle : mid < i
      · exact hle
      · rcases Nat.lt_or_eq_of_le (Nat.not_lt.mp hle) with hgt | rfl
        · have := apart hgt hq hmid
          have := hne r (List.mem_of_getElem? hmid)
          grind [Interval.Covers, Interval.Before]
        · grind [Interval.Covers]
  | case4 first last hlt mid r hmid hv hv' =>
    have hc : r.Covers v := by grind [Interval.Covers]
    exact iff_of_true rfl ⟨mid, r, by omega, by omega, hmid, hc⟩
  | case5 first last hlt =>
    refine iff_of_false (by simp) ?_
    rintro ⟨i, q, hf, hi, -⟩
    omega

theorem contains_iff_mem {s : IntervalSet} (hs : s.Canonical) {v : Int64} :
    s.contains v = true ↔ v ∈ s := by
  rw [contains, searchBetween_iff hs.nonempty hs.sorted v 0 _ (Nat.le_refl _), mem_iff]
  constructor
  · rintro ⟨i, r, -, -, hr, hc⟩
    exact ⟨r, List.mem_of_getElem? hr, hc⟩
  · rintro ⟨r, hr, hc⟩
    obtain ⟨i, hi⟩ := List.getElem?_of_mem hr
    exact ⟨i, r, by omega, (List.getElem?_eq_some_iff.mp hi).choose, hi, hc⟩

/-- What the search finds is a member of any set, canonical or not. -/
theorem mem_of_contains {s : IntervalSet} {v : Int64} (h : s.contains v = true) : v ∈ s := by
  have found : ∀ first last, searchBetween s.ranges v first last = true → v ∈ s := by
    intro first last
    fun_induction searchBetween s.ranges v first last with
    | case1 => simp
    | case2 first last hlt mid r hmid hv ih => exact ih
    | case3 first last hlt mid r hmid hv hv' ih => exact ih
    | case4 first last hlt mid r hmid hv hv' =>
      exact fun _ => ⟨r, List.mem_of_getElem? hmid, by grind [Interval.Covers]⟩
    | case5 => simp
  exact found _ _ h

/-! ## Lower bounds -/

/-- Every range starts at `b` or later. This needs no canonical form, so that it also holds of sets
that reach the greatest symbol. -/
def AtLeast (b : Int64) (s : IntervalSet) : Prop := ∀ r ∈ s.ranges, b ≤ r.lo

theorem AtLeast.le {b v : Int64} {s : IntervalSet} (h : s.AtLeast b) (hv : v ∈ s) : b ≤ v := by
  obtain ⟨r, hr, hc⟩ := hv
  exact Int64.le_trans (h r hr) hc.1

theorem atLeast_empty (b : Int64) : empty.AtLeast b := by simp [AtLeast, empty]

theorem atLeast_absorb {b lo hi : Int64} {rs : List Interval} (hlo : b ≤ lo)
    (h : ∀ r ∈ rs, b ≤ r.lo) : ∀ r ∈ absorb lo hi rs, b ≤ r.lo := by
  induction rs generalizing lo hi with
  | nil => simpa [absorb] using hlo
  | cons r rs ih =>
    rw [List.forall_mem_cons] at h
    rw [absorb]
    split
    · refine ih ?_ h.2
      split
      · exact h.1
      · exact hlo
    · simpa using ⟨hlo, h⟩

theorem AtLeast.insertRange {b lo hi : Int64} {s : IntervalSet} (h : s.AtLeast b)
    (hlo : lo ≤ hi → b ≤ lo) : (s.insertRange lo hi).AtLeast b := by
  unfold IntervalSet.insertRange
  split
  · exact h
  · intro r hr
    rcases List.mem_append.mp hr with hr | hr
    · exact h r ((List.takeWhile_sublist _).subset hr)
    · refine atLeast_absorb (hlo (by grind)) ?_ r hr
      exact fun r hr => h r ((List.dropWhile_sublist _).subset hr)

theorem AtLeast.union {b : Int64} {s t : IntervalSet} (hs : s.AtLeast b)
    (ht : ∀ v ∈ t, b ≤ v) : (s.union t).AtLeast b := by
  obtain ⟨rs⟩ := t
  induction rs generalizing s with
  | nil => exact hs
  | cons r rs ih =>
    refine ih (s := s.insertRange r.lo r.hi) (hs.insertRange fun hr => ?_) ?_
    · exact ht r.lo ⟨r, by simp, by simp, hr⟩
    · rintro v ⟨r', hr', hc⟩
      exact ht v ⟨r', List.mem_cons_of_mem _ hr', hc⟩

theorem atLeast_range (lo hi : Int64) : (range lo hi).AtLeast lo :=
  (atLeast_empty lo).insertRange fun _ => by simp

theorem AtLeast.gaps {b lo hi next : Int64} {rs : List Interval} {out : IntervalSet}
    (h : out.AtLeast b) (hnext : b ≤ next) : (gaps lo hi next rs out).AtLeast b := by
  have close : ∀ {next : Int64} {out : IntervalSet}, out.AtLeast b → b ≤ next →
      (closeGap hi next out).AtLeast b := by
    intro next out h hnext
    unfold closeGap
    split
    · exact h.insertRange fun _ => hnext
    · exact h
  induction rs generalizing next out with
  | nil => exact close h hnext
  | cons r rs ih =>
    rw [IntervalSet.gaps]
    split
    · exact ih h hnext
    · split
      · exact close h hnext
      · refine ih ?_ ?_
        · split
          · exact h.insertRange fun _ => hnext
          · exact h
        · split <;> grind

theorem atLeast_complement (s : IntervalSet) (lo hi : Int64) : (s.complement lo hi).AtLeast lo :=
  (atLeast_empty lo).gaps (by simp)

/-! ## Upper bounds -/

def AtMost (b : Int64) (s : IntervalSet) : Prop := ∀ r ∈ s.ranges, r.hi ≤ b

theorem AtMost.le {b v : Int64} {s : IntervalSet} (h : s.AtMost b) (hv : v ∈ s) : v ≤ b := by
  obtain ⟨r, hr, hc⟩ := hv
  exact Int64.le_trans hc.2 (h r hr)

theorem atMost_empty (b : Int64) : empty.AtMost b := by simp [AtMost, empty]

theorem atMost_absorb {b lo hi : Int64} {rs : List Interval} (hhi : hi ≤ b)
    (h : ∀ r ∈ rs, r.hi ≤ b) : ∀ r ∈ absorb lo hi rs, r.hi ≤ b := by
  induction rs generalizing lo hi with
  | nil => simpa [absorb] using hhi
  | cons r rs ih =>
    rw [List.forall_mem_cons] at h
    rw [absorb]
    split
    · refine ih ?_ h.2
      split
      · exact h.1
      · exact hhi
    · simpa using ⟨hhi, h⟩

theorem AtMost.insertRange {b lo hi : Int64} {s : IntervalSet} (h : s.AtMost b) (hhi : hi ≤ b) :
    (s.insertRange lo hi).AtMost b := by
  unfold IntervalSet.insertRange
  split
  · exact h
  · intro r hr
    rcases List.mem_append.mp hr with hr | hr
    · exact h r ((List.takeWhile_sublist _).subset hr)
    · refine atMost_absorb hhi ?_ r hr
      exact fun r hr => h r ((List.dropWhile_sublist _).subset hr)

theorem atMost_range (lo hi : Int64) : (range lo hi).AtMost hi :=
  (atMost_empty hi).insertRange (by simp)

theorem AtMost.gaps {lo hi next : Int64} {rs : List Interval} {out : IntervalSet}
    (h : out.AtMost hi) : (gaps lo hi next rs out).AtMost hi := by
  have close : ∀ {next : Int64} {out : IntervalSet}, out.AtMost hi →
      (closeGap hi next out).AtMost hi := by
    intro next out h
    unfold closeGap
    split
    · exact h.insertRange (by simp)
    · exact h
  induction rs generalizing next out with
  | nil => exact close h
  | cons r rs ih =>
    rw [IntervalSet.gaps]
    split
    · exact ih h
    · split
      · exact close h
      · refine ih ?_
        split
        · exact h.insertRange (by grind)
        · exact h

theorem atMost_complement (s : IntervalSet) (lo hi : Int64) : (s.complement lo hi).AtMost hi :=
  (atMost_empty hi).gaps

end IntervalSet

end GrammarCompletion
