import GrammarCompletion.Proofs.IntervalSet.Members
import Mathlib.Algebra.Group.Nat.Defs
import Mathlib.Data.List.Chain

/-!
# Canonical sets

Every operation that adds symbols keeps a set canonical, so all sets that are built from bounds with
neighbours are. On canonical sets the queries answer for exactly the members: the search, the only
symbol, the number of symbols and the list of them all.
-/

namespace GrammarCompletion

theorem toInt_succ {v w : Int64} (below : v < w) : (v + 1).toInt = v.toInt + 1 := by
  have least := Int64.le_toInt v
  have greatest := Int64.toInt_lt w
  rw [Int64.lt_iff_toInt_lt] at below
  rw [Int64.toInt_add, Int64.toInt_one, Int.bmod_eq_of_le] <;> omega

namespace Interval

theorem before_iff_toInt {r s : Interval} : r.Before s ↔ r.hi.toInt + 1 < s.lo.toInt := by
  unfold Before
  constructor
  · rintro ⟨below, gap⟩
    rwa [Int64.lt_iff_toInt_lt, toInt_succ below] at gap
  · intro gap
    have below : r.hi < s.lo := by
      rw [Int64.lt_iff_toInt_lt]
      omega
    exact ⟨below, by rwa [Int64.lt_iff_toInt_lt, toInt_succ below]⟩

/-! ## The symbols of a range -/

theorem length_valuesUpTo (count : Nat) (last : Int64) (later : List Int64) :
    (valuesUpTo count last later).length = count + later.length := by
  induction count generalizing last later with
  | zero => simp [valuesUpTo]
  | succ count ih =>
    rw [valuesUpTo, ih, List.length_cons]
    omega

/-- The symbols up to `last` ascend as long as counting them down does not pass `lo`. -/
theorem ascending_valuesUpTo (lo : Int64) {count : Nat} {last : Int64} {later : List Int64}
    (enough : lo.toInt + count ≤ last.toInt + 1) (above : 0 < count → ∀ v ∈ later, last < v)
    (sorted : later.Pairwise (· < ·)) : (valuesUpTo count last later).Pairwise (· < ·) := by
  induction count generalizing last later with
  | zero => exact sorted
  | succ count ih =>
    rw [valuesUpTo]
    replace above := above (Nat.succ_pos count)
    by_cases more : 0 < count
    · have pred : (last - 1).toInt = last.toInt - 1 :=
        @toInt_sub_ofNat lo last 1 (by omega)
      refine ih (by omega) (fun _ => ?_) (List.pairwise_cons.mpr ⟨above, sorted⟩)
      intro v member
      rw [Int64.lt_iff_toInt_lt]
      rcases List.mem_cons.mp member with rfl | member
      · omega
      · have := Int64.lt_iff_toInt_lt.mp (above v member)
        omega
    · rw [show count = 0 by omega]
      exact List.pairwise_cons.mpr ⟨above, sorted⟩

theorem ascending_valuesBefore {r : Interval} {later : List Int64} (above : ∀ v ∈ later, r.hi < v)
    (sorted : later.Pairwise (· < ·)) : (r.valuesBefore later).Pairwise (· < ·) := by
  unfold valuesBefore
  by_cases proper : r.lo ≤ r.hi
  · have := Int64.le_iff_toInt_le.mp proper
    exact ascending_valuesUpTo r.lo (by omega) (fun _ => above) sorted
  · have : (r.hi.toInt - r.lo.toInt + 1).toNat = 0 := by
      have := Int64.lt_iff_toInt_lt.mp (Int64.not_le.mp proper)
      omega
    rw [this]
    exact sorted

theorem length_valuesBefore {r : Interval} (proper : r.lo ≤ r.hi) (later : List Int64) :
    Int64.ofNat (r.valuesBefore later).length = r.size + Int64.ofNat later.length := by
  have ordered := Int64.le_iff_toInt_le.mp proper
  have count : Int64.ofNat (r.hi.toInt - r.lo.toInt + 1).toNat = r.size := by
    rw [← Int64.ofInt_eq_ofNat, Int.toNat_of_nonneg (by omega), Int64.ofInt_add, Int64.ofInt_sub,
      Int64.ofInt_toInt, Int64.ofInt_toInt]
    rfl
  rw [valuesBefore, length_valuesUpTo, Int64.ofNat_add, count]

/-- Count from `v` up to `last`. There is no result if `fuel` steps do not get there. -/
def countUp (last : Int64) : (fuel : Nat) → (v : Int64) → Option (List Int64)
  | 0, _ => none
  | fuel + 1, v => if v ≤ last then (countUp last fuel (v + 1)).map (v :: ·) else some []

theorem valuesUpTo_succ (count : Nat) (last : Int64) (later : List Int64) :
    valuesUpTo (count + 1) last later =
      (last - Int64.ofNat count) :: valuesUpTo count last later := by
  induction count generalizing last later with
  | zero => simp [valuesUpTo]
  | succ count ih =>
    have pred : last - 1 - Int64.ofNat count = last - Int64.ofNat (count + 1) := by
      rw [Int64.ofNat_add]
      grind
    rw [valuesUpTo, ih, pred]
    rfl

theorem countUp_eq {lo hi : Int64} (small : lo ≤ hi → hi < Int64.maxValue) {fuel : Nat}
    (enough : (hi.toInt - lo.toInt + 1).toNat < fuel) :
    countUp hi fuel lo = some (valuesBefore ⟨lo, hi⟩ []) := by
  induction fuel generalizing lo with
  | zero => omega
  | succ fuel ih =>
    unfold countUp
    by_cases h : lo ≤ hi
    · have next : (lo + 1).toInt = lo.toInt + 1 := toInt_succ (Int64.lt_of_le_of_lt h (small h))
      rw [Int64.le_iff_toInt_le] at h
      have rest : countUp hi fuel (lo + 1) = some (valuesBefore ⟨lo + 1, hi⟩ []) :=
        ih (fun _ => small (by rw [Int64.le_iff_toInt_le]; omega)) (by omega)
      have count : (hi.toInt - lo.toInt + 1).toNat = (hi.toInt - (lo + 1).toInt + 1).toNat + 1 := by
        omega
      have first : hi - Int64.ofNat (hi.toInt - (lo + 1).toInt + 1).toNat = lo := by
        apply Int64.toInt_inj.mp
        rw [@toInt_sub_ofNat lo hi _ (by omega)]
        omega
      rw [if_pos (by rw [Int64.le_iff_toInt_le]; exact h), rest]
      simp only [valuesBefore, count, valuesUpTo_succ, first, Option.map_some]
    · rw [if_neg h]
      rw [Int64.le_iff_toInt_le] at h
      have count : (hi.toInt - lo.toInt + 1).toNat = 0 := by omega
      simp only [valuesBefore, count, valuesUpTo]

end Interval

namespace IntervalSet

/-- It is enough to compare each range with the next one. -/
theorem canonical_iff_isChain {s : IntervalSet} :
    s.Canonical ↔ (∀ r ∈ s.ranges, r.lo ≤ r.hi) ∧
      s.ranges.IsChain fun r next => r.hi.toInt + 1 < next.lo.toInt := by
  obtain ⟨rs⟩ := s
  constructor
  · rintro ⟨nonempty, sorted⟩
    exact ⟨nonempty, sorted.isChain.imp fun _ _ => Interval.before_iff_toInt.mp⟩
  · rintro ⟨nonempty, chain⟩
    refine ⟨nonempty, ?_⟩
    induction rs with
    | nil => exact .nil
    | cons r rs ih =>
      rw [List.forall_mem_cons] at nonempty
      obtain ⟨first, chain⟩ := List.isChain_cons.mp chain
      have sorted : rs.Pairwise Interval.Before := ih nonempty.2 chain
      refine List.pairwise_cons.mpr ⟨?_, sorted⟩
      cases rs with
      | nil => simp
      | cons q rs =>
        have next : r.Before q := Interval.before_iff_toInt.mpr (first q rfl)
        rw [List.forall_mem_cons]
        refine ⟨next, fun p member => ?_⟩
        -- the next range is not empty, so all that lie behind it lie behind the first one
        have := (List.pairwise_cons.mp sorted).1 p member
        have := nonempty.2 q List.mem_cons_self
        grind [Interval.Before]

variable {s : IntervalSet}

theorem Canonical.cons {r : Interval} {rs : List Interval} (h : Canonical ⟨r :: rs⟩) :
    r.lo ≤ r.hi ∧ (∀ q ∈ rs, r.Before q) ∧ Canonical ⟨rs⟩ := by
  obtain ⟨nonempty, sorted⟩ := h
  rw [List.forall_mem_cons] at nonempty
  rw [List.pairwise_cons] at sorted
  exact ⟨nonempty.1, sorted.1, nonempty.2, sorted.2⟩

/-! ## Queries -/

theorem elements_cons (r : Interval) (rs : List Interval) :
    elements ⟨r :: rs⟩ = r.valuesBefore (elements ⟨rs⟩) := rfl

theorem Canonical.ascending_elements (h : s.Canonical) : s.elements.Pairwise (· < ·) := by
  obtain ⟨rs⟩ := s
  induction rs with
  | nil => exact .nil
  | cons r rs ih =>
    obtain ⟨-, before, rest⟩ := h.cons
    rw [elements_cons]
    refine Interval.ascending_valuesBefore (fun v member => ?_) (ih rest)
    obtain ⟨q, hq, covers⟩ := mem_elements.mp member
    exact Int64.lt_of_lt_of_le (before q hq).1 covers.1

def countsUp (s : IntervalSet) : Bool :=
  s.ranges.all fun r => Interval.countUp r.hi (2 ^ 64 + 1) r.lo = some (r.valuesBefore [])

theorem countsUp_of_lt {s : IntervalSet} (h : ∀ x ∈ s, x < Int64.maxValue) :
    s.countsUp = true := by
  simp only [countsUp, List.all_eq_true, decide_eq_true_eq]
  intro r hr
  apply Interval.countUp_eq
  · intro proper
    exact h r.hi ⟨r, hr, proper, by simp⟩
  · have := Int64.toInt_lt r.hi
    have := Int64.le_toInt r.lo
    omega

theorem Canonical.size_eq (h : s.Canonical) : s.size = Int64.ofNat s.elements.length := by
  obtain ⟨rs⟩ := s
  suffices total : ∀ n : Int64, rs.foldl (fun n r => n + r.size) n =
      n + Int64.ofNat (elements ⟨rs⟩).length by
    simpa [size] using total 0
  induction rs with
  | nil => simp [elements]
  | cons r rs ih =>
    obtain ⟨proper, -, rest⟩ := h.cons
    intro n
    rw [List.foldl_cons, ih rest, elements_cons, Interval.length_valuesBefore proper, Int64.add_assoc]

/-- Between two bounds there is only so much room for ascending symbols. -/
theorem length_le_of_ascending {symbols : List Int64} (ascending : symbols.Pairwise (· < ·))
    {lo hi : Int} (ordered : lo ≤ hi) (inner : ∀ v ∈ symbols, lo ≤ v.toInt ∧ v.toInt < hi) :
    symbols.length ≤ hi - lo := by
  induction symbols generalizing lo with
  | nil => simpa using ordered
  | cons v symbols ih =>
    obtain ⟨above, ascending⟩ := List.pairwise_cons.mp ascending
    rw [List.forall_mem_cons] at inner
    have rest : (symbols.length : Int) ≤ hi - (v.toInt + 1) := by
      refine ih ascending (by omega) fun w member => ⟨?_, (inner.2 w member).2⟩
      exact Int64.lt_iff_toInt_lt.mp (above w member)
    simp only [List.length_cons, Int.natCast_add, Int.natCast_one]
    omega

/-- Room is made for as many symbols as `size` says. Without the greatest symbol there are fewer than
2^64, so that a list that is too long is never taken for a shorter one. -/
theorem Canonical.values_eq (h : s.Canonical) (small : ∀ v ∈ s, v < Int64.maxValue) :
    s.values = if s.elements.length ≤ 2 ^ 45 then .ok s.elements else .error ⟨⟩ := by
  have count : s.elements.length ≤ (2 ^ 63 - 1 : Int) - (-2 ^ 63) := by
    refine length_le_of_ascending h.ascending_elements (by omega) fun v member => ?_
    have below := Int64.lt_iff_toInt_lt.mp (small v (mem_elements.mp member))
    have least := Int64.le_toInt v
    rw [Int64.toInt_maxValue] at below
    omega
  have negative : s.size < 0 ↔ 2 ^ 63 ≤ s.elements.length := by
    rw [h.size_eq, Int64.lt_iff_toInt_lt, Int64.toInt_ofNat', Int64.toInt_zero, Int.bmod_def, Int64.size]
    omega
  have long : mostListed < s.size ↔ 2 ^ 45 < s.elements.length ∧ s.elements.length < 2 ^ 63 := by
    have bound : mostListed.toInt = 2 ^ 45 := by decide
    rw [h.size_eq, Int64.lt_iff_toInt_lt, Int64.toInt_ofNat', bound, Int.bmod_def, Int64.size]
    omega
  have refused : (s.size < 0 ∨ mostListed < s.size) ↔ ¬ s.elements.length ≤ 2 ^ 45 := by
    rw [negative, long]
    omega
  simp only [values, refused, ite_not]

theorem Canonical.single?_eq_some_iff (h : s.Canonical) {v : Int64} :
    s.single? = some v ↔ ∀ x, x ∈ s ↔ x = v := by
  constructor
  · unfold single?
    split
    · next r ranges =>
      split
      · next point =>
        rintro ⟨⟩ x
        simp only [mem_iff, ranges, List.mem_singleton, exists_eq_left, Interval.Covers, ← point]
        grind
      · simp
    · simp
  · intro only
    obtain ⟨rs⟩ := s
    cases rs with
    | nil => exact absurd ((only v).mpr rfl) (not_mem_empty v)
    | cons r rs =>
      obtain ⟨proper, before, rest⟩ := h.cons
      have lower : r.lo = v := (only r.lo).mp ⟨r, List.mem_cons_self, Int64.le_refl _, proper⟩
      have upper : r.hi = v := (only r.hi).mp ⟨r, List.mem_cons_self, proper, Int64.le_refl _⟩
      cases rs with
      | nil => simp [single?, lower, upper]
      | cons q rs =>
        -- a second range would hold the symbol too, behind the first one
        have again : q.lo = v :=
          (only q.lo).mp ⟨q, by simp, Int64.le_refl _, rest.nonempty q List.mem_cons_self⟩
        have := (before q List.mem_cons_self).1
        rw [upper, again] at this
        exact absurd this Int64.lt_irrefl

/-! ## Built sets -/

/-- The sets that are built by adding symbols and ranges which have neighbours on both sides. -/
inductive Built : IntervalSet → Prop
  | ofList {values : List Int64}
    (inner : ∀ v ∈ values, Int64.minValue < v ∧ v < Int64.maxValue) : Built (ofList values)
  | range {lo hi : Int64} (lower : Int64.minValue < lo) (upper : hi < Int64.maxValue) :
    Built (range lo hi)
  | insert {s : IntervalSet} {v : Int64} (built : Built s) (lower : Int64.minValue < v)
    (upper : v < Int64.maxValue) : Built (s.insert v)
  | insertRange {s : IntervalSet} {lo hi : Int64} (built : Built s) (lower : Int64.minValue < lo)
    (upper : hi < Int64.maxValue) : Built (s.insertRange lo hi)
  | union {s t : IntervalSet} (first : Built s) (second : Built t) : Built (s.union t)

theorem bounded_empty : empty.Bounded := fun v member => absurd member (not_mem_empty v)

theorem Bounded.insertRange (h : s.Bounded) (canonical : s.Canonical) {lo hi : Int64}
    (lower : Int64.minValue < lo) (upper : hi < Int64.maxValue) : (s.insertRange lo hi).Bounded := by
  intro v member
  rcases (mem_insertRange canonical lower upper).mp member with old | ⟨above, below⟩
  · exact h v old
  · exact ⟨Int64.lt_of_lt_of_le lower above, Int64.lt_of_le_of_lt below upper⟩

theorem ofList_canonical_bounded {values : List Int64}
    (inner : ∀ v ∈ values, Int64.minValue < v ∧ v < Int64.maxValue) :
    (ofList values).Canonical ∧ (ofList values).Bounded := by
  suffices added : ∀ s : IntervalSet, s.Canonical → s.Bounded →
      (values.foldl IntervalSet.insert s).Canonical ∧ (values.foldl IntervalSet.insert s).Bounded from
    added empty canonical_empty bounded_empty
  induction values with
  | nil => exact fun s canonical bounded => ⟨canonical, bounded⟩
  | cons v values ih =>
    rw [List.forall_mem_cons] at inner
    intro s canonical bounded
    exact ih inner.2 _ (canonical.insertRange inner.1.1 inner.1.2)
      (bounded.insertRange canonical inner.1.1 inner.1.2)

/-- The bounds are part of the invariant, since a set that is added gives its bounds to the other. -/
theorem Built.canonical_bounded (h : Built s) : s.Canonical ∧ s.Bounded := by
  induction h with
  | ofList inner => exact ofList_canonical_bounded inner
  | range lower upper =>
    exact ⟨canonical_empty.insertRange lower upper,
      bounded_empty.insertRange canonical_empty lower upper⟩
  | insert _ lower upper ih | insertRange _ lower upper ih =>
    exact ⟨ih.1.insertRange lower upper, ih.2.insertRange ih.1 lower upper⟩
  | union _ _ first second =>
    obtain ⟨canonical, member⟩ := union_spec first.1 second.2
    refine ⟨canonical, fun v added => ?_⟩
    rcases (member v).mp added with old | new
    · exact first.2 v old
    · exact second.2 v new

/-- Canonical sets stay canonical and mean unions: a range whose bounds have neighbours adds exactly the
symbols it covers, the queries answer for exactly the members, and whatever is built from such bounds is
canonical. The symbols in order are also what counting up gives, unless a count would pass the greatest
number; they are handed out as a list unless there are more than 2^45 of them. -/
theorem canonical_means_union (h : s.Canonical) :
    (∀ t : IntervalSet, t.Canonical ↔ (∀ r ∈ t.ranges, r.lo ≤ r.hi) ∧
      t.ranges.IsChain fun r next => r.hi.toInt + 1 < next.lo.toInt) ∧
    (∀ lo hi : Int64, Int64.minValue < lo → hi < Int64.maxValue →
      (s.insertRange lo hi).Canonical ∧
        ∀ v, v ∈ s.insertRange lo hi ↔ v ∈ s ∨ (lo ≤ v ∧ v ≤ hi)) ∧
    (∀ v, s.contains v = true ↔ v ∈ s) ∧
    (∀ v, s.single? = some v ↔ ∀ x, x ∈ s ↔ x = v) ∧
    ((∀ r ∈ s.ranges, r.hi ≠ Int64.maxValue) →
      s.countsUp = true ∧ s.elements.Pairwise (· < ·) ∧ (∀ v, v ∈ s.elements ↔ v ∈ s) ∧
        s.size = Int64.ofNat s.elements.length ∧
        s.values = if s.elements.length ≤ 2 ^ 45 then .ok s.elements else .error ⟨⟩) ∧
    ∀ t : IntervalSet, Built t → t.Canonical := by
  refine ⟨fun t => canonical_iff_isChain, fun lo hi lower upper => ?_, fun v => contains_iff_mem h,
    fun v => h.single?_eq_some_iff, fun small => ?_, fun t built => built.canonical_bounded.1⟩
  · exact ⟨h.insertRange lower upper, fun v => mem_insertRange h lower upper⟩
  · have below : ∀ v ∈ s, v < Int64.maxValue := by
      rintro v ⟨r, member, -, below⟩
      have := small r member
      grind
    exact ⟨countsUp_of_lt below, h.ascending_elements, fun v => mem_elements, h.size_eq,
      h.values_eq below⟩

/-- Adding a range to these bridges the gap between the first two and stops short of the third. -/
def bridgeable : IntervalSet := ⟨[⟨-3, -1⟩, ⟨5, 9⟩, ⟨21, 21⟩]⟩

theorem canonical_means_union_bridged :
    bridgeable.Canonical ∧ bridgeable.insertRange 0 19 = ⟨[⟨-3, 19⟩, ⟨21, 21⟩]⟩ ∧
      (bridgeable.insertRange 0 19).Canonical ∧
      (∀ v, v ∈ bridgeable.insertRange 0 19 ↔ v ∈ bridgeable ∨ (0 ≤ v ∧ v ≤ 19)) ∧
      bridgeable.contains 8 = true ∧ (8 : Int64) ∈ bridgeable ∧ bridgeable.single? ≠ some 21 ∧
      bridgeable.values = .ok [-3, -2, -1, 5, 6, 7, 8, 9, 21] ∧
      bridgeable.size = Int64.ofNat bridgeable.elements.length := by
  have canonical : bridgeable.Canonical := canonical_iff_isChain.mpr ⟨by decide, by decide⟩
  obtain ⟨-, added, searched, -, listed, -⟩ := canonical_means_union canonical
  obtain ⟨canonical', members⟩ := added 0 19 (by decide) (by decide)
  obtain ⟨-, -, -, size, values⟩ := listed (by decide)
  have found : bridgeable.contains 8 = true := by decide +kernel
  exact ⟨canonical, by decide, canonical', members, found, (searched 8).mp found, by decide, values, size⟩

/-- All symbols but the least and the greatest. -/
def widest : IntervalSet := range (Int64.minValue + 1) (Int64.maxValue - 1)

/-- No range of this canonical set ends at the greatest symbol, and still its symbols are not listed:
there are 2^64 - 2 of them, which `size` gives as -2. -/
theorem values_widest :
    Built widest ∧ widest.Canonical ∧ (∀ r ∈ widest.ranges, r.hi ≠ Int64.maxValue) ∧
      widest.size = -2 ∧ widest.values = .error ⟨⟩ := by
  have built : Built widest := .range (by decide) (by decide)
  exact ⟨built, built.canonical_bounded.1, by decide, by decide, rfl⟩

end IntervalSet

end GrammarCompletion
