import GrammarCompletion.Proofs.Automaton.Build
import GrammarCompletion.Proofs.IntervalSet.Canonical

/-!
# Complements

The complement of a set collects the gaps between its ranges, from left to right. A gap starts one symbol
behind the range before it. Behind a range that ends with the greatest symbol there is none, and the next
gap starts where the last one did. As long as no range that takes part ends there, each gap lies behind
all gaps before it, so the complement is exact and canonical. Otherwise the last gap runs over that range
up to the upper bound, and the search finds this bound in the complement.

The labels of an automaton lie within its alphabet, so a complement in the alphabet is always exact.
-/

namespace GrammarCompletion

theorem toInt_pred {v w : Int64} (above : w < v) : (v - 1).toInt = v.toInt - 1 := by
  have least := Int64.le_toInt w
  have greatest := Int64.toInt_lt v
  rw [Int64.lt_iff_toInt_lt] at above
  rw [Int64.toInt_sub, Int64.toInt_one, Int.bmod_eq_of_le] <;> omega

namespace IntervalSet

theorem le_pred_iff {u v w : Int64} (above : w < v) : u ≤ v - 1 ↔ u < v := by
  rw [Int64.le_iff_toInt_le, Int64.lt_iff_toInt_lt, toInt_pred above]
  omega

/-! ## Adding behind -/

/-- A new range goes between the ranges that end before it with a gap and the others. -/
theorem insertRange_append {lo hi : Int64} {front back : List Interval} (proper : lo ≤ hi)
    (early : ∀ r ∈ front, r.hi < lo - 1) (late : ∀ r ∈ back.head?, ¬ r.hi < lo - 1) :
    insertRange ⟨front ++ back⟩ lo hi = ⟨front ++ absorb lo hi back⟩ := by
  have passed : ∀ r ∈ front, decide (r.hi < lo - 1) = true :=
    fun r member => decide_eq_true (early r member)
  rw [insertRange, if_neg (Int64.not_lt.mpr proper)]
  simp only [List.takeWhile_append_of_pos passed, List.dropWhile_append_of_pos passed]
  cases back with
  | nil => simp
  | cons r rs =>
    have stop : decide (r.hi < lo - 1) = false := decide_eq_false (late r rfl)
    simp [stop]

theorem insertRange_last {s : IntervalSet} {lo hi : Int64} (proper : lo ≤ hi)
    (early : ∀ r ∈ s.ranges, r.hi < lo - 1) :
    s.insertRange lo hi = ⟨s.ranges ++ [⟨lo, hi⟩]⟩ := by
  have placed : insertRange ⟨s.ranges ++ []⟩ lo hi = ⟨s.ranges ++ absorb lo hi []⟩ :=
    insertRange_append proper early (by simp)
  rwa [List.append_nil] at placed

/-- The set is canonical and ends before a symbol, with a gap between them. -/
structure Trails (out : IntervalSet) (next : Int64) : Prop where
  canonical : out.Canonical
  before : ∀ r ∈ out.ranges, r.hi.toInt + 1 < next.toInt

theorem trails_empty (next : Int64) : empty.Trails next :=
  ⟨canonical_empty, by simp [empty]⟩

namespace Trails

variable {out : IntervalSet} {next last : Int64} (h : out.Trails next)
include h

theorem mono {later : Int64} (le : next ≤ later) : out.Trails later := by
  rw [Int64.le_iff_toInt_le] at le
  exact ⟨h.canonical, fun r member => Int.lt_of_lt_of_le (h.before r member) le⟩

theorem lt_pred (r : Interval) (member : r ∈ out.ranges) : r.hi < next - 1 := by
  have gap := h.before r member
  have less : r.hi < next := by
    rw [Int64.lt_iff_toInt_lt]
    omega
  rw [Int64.lt_iff_toInt_lt, toInt_pred less]
  omega

/-- A range behind the set is put at the end, whether or not its bounds have neighbours. -/
theorem insertRange_eq (proper : next ≤ last) :
    out.insertRange next last = ⟨out.ranges ++ [⟨next, last⟩]⟩ :=
  insertRange_last proper h.lt_pred

theorem mem_insertRange (proper : next ≤ last) {v : Int64} :
    v ∈ out.insertRange next last ↔ v ∈ out ∨ (next ≤ v ∧ v ≤ last) := by
  rw [h.insertRange_eq proper, mem_iff, mem_iff]
  simp [Interval.Covers, or_and_right, exists_or]

theorem canonical_insertRange (proper : next ≤ last) : (out.insertRange next last).Canonical := by
  rw [h.insertRange_eq proper]
  constructor
  · rw [List.forall_mem_append, List.forall_mem_singleton]
    exact ⟨h.canonical.nonempty, proper⟩
  · apply List.pairwise_append.mpr ⟨h.canonical.sorted, List.pairwise_singleton _ _, _⟩
    intro r member q new
    cases List.mem_singleton.mp new
    exact Interval.before_iff_toInt.mpr (h.before r member)

end Trails

/-! ## Gaps -/

def behind (next : Int64) (r : Interval) : Int64 := if next < r.hi + 1 then r.hi + 1 else next

def addGap (next : Int64) (r : Interval) (out : IntervalSet) : IntervalSet :=
  if next < r.lo then out.insertRange next (r.lo - 1) else out

theorem gaps_cons (lo hi next : Int64) (r : Interval) (rs : List Interval) (out : IntervalSet) :
    gaps lo hi next (r :: rs) out =
      if r.hi < lo then gaps lo hi next rs out
      else if hi < r.lo then closeGap hi next out
      else gaps lo hi (behind next r) rs (addGap next r out) := rfl

section

variable {out : IntervalSet} {next lo hi : Int64} {r : Interval} {rs : List Interval}

theorem behind_le_iff (next : Int64) (small : r.hi ≠ Int64.maxValue) {v : Int64} :
    behind next r ≤ v ↔ next ≤ v ∧ r.hi < v := by
  have below : r.hi < Int64.maxValue := by grind
  have succ := toInt_succ below
  unfold behind
  split
  · next less =>
    simp only [Int64.lt_iff_toInt_lt, Int64.le_iff_toInt_le] at less ⊢
    omega
  · next le =>
    simp only [Int64.lt_iff_toInt_lt, Int64.le_iff_toInt_le] at le ⊢
    omega

theorem le_behind (next : Int64) (small : r.hi ≠ Int64.maxValue) :
    next ≤ behind next r ∧ r.hi < behind next r :=
  (behind_le_iff next small).mp (Int64.le_refl _)

theorem Trails.mem_addGap (h : out.Trails next) {v : Int64} :
    v ∈ addGap next r out ↔ v ∈ out ∨ (next ≤ v ∧ v < r.lo) := by
  unfold addGap
  split
  · next less => rw [h.mem_insertRange ((le_pred_iff less).mpr less), le_pred_iff less]
  · next le =>
    have none : ¬(next ≤ v ∧ v < r.lo) := fun ends => le (Int64.lt_of_le_of_lt ends.1 ends.2)
    simp [none]

theorem Trails.addGap (h : out.Trails next) (proper : r.lo ≤ r.hi) (small : r.hi ≠ Int64.maxValue) :
    (addGap next r out).Trails (behind next r) := by
  have later := le_behind next small
  unfold IntervalSet.addGap
  split
  · next less =>
    have gap : next ≤ r.lo - 1 := (le_pred_iff less).mpr less
    constructor
    · exact h.canonical_insertRange gap
    · rw [h.insertRange_eq gap, List.forall_mem_append, List.forall_mem_singleton]
      have pred := toInt_pred less
      refine ⟨(h.mono later.1).before, ?_⟩
      simp only [Int64.lt_iff_toInt_lt, Int64.le_iff_toInt_le] at proper later ⊢
      omega
  · exact h.mono later.1

theorem Trails.closeGap_spec (h : out.Trails next) (hi : Int64) :
    (closeGap hi next out).Canonical ∧
      ∀ v, v ∈ closeGap hi next out ↔ v ∈ out ∨ (next ≤ v ∧ v ≤ hi) := by
  unfold closeGap
  split
  · next proper => exact ⟨h.canonical_insertRange proper, fun v => h.mem_insertRange proper⟩
  · next beyond =>
    have none (v : Int64) : ¬(next ≤ v ∧ v ≤ hi) := fun ends => beyond (Int64.le_trans ends.1 ends.2)
    exact ⟨h.canonical, fun v => by simp [none v]⟩

/-- If no range that starts in time ends with the greatest symbol, the gaps are exact and canonical. -/
theorem gaps_spec (sorted : Canonical ⟨rs⟩)
    (small : ∀ r ∈ rs, r.lo ≤ hi → r.hi ≠ Int64.maxValue) (h : out.Trails next) (above : lo ≤ next) :
    (gaps lo hi next rs out).Canonical ∧
      ∀ v, v ∈ gaps lo hi next rs out ↔
        v ∈ out ∨ (next ≤ v ∧ v ≤ hi ∧ ∀ r ∈ rs, ¬ r.Covers v) := by
  induction rs generalizing next out with
  | nil => simpa [gaps] using h.closeGap_spec hi
  | cons r rs ih =>
    obtain ⟨proper, before, sorted⟩ := sorted.cons
    rw [List.forall_mem_cons] at small
    -- what lies before the range lies before all others too
    have others (v : Int64) (less : v < r.lo) : ∀ q ∈ rs, ¬ q.Covers v := by
      intro q member covers
      have := (before q member).1
      grind [Interval.Covers]
    simp only [List.forall_mem_cons, gaps_cons]
    by_cases early : r.hi < lo
    · have rest := ih sorted small.2 h above
      rw [if_pos early]
      refine ⟨rest.1, fun v => ?_⟩
      rw [rest.2 v]
      grind [Interval.Covers]
    · rw [if_neg early]
      by_cases late : hi < r.lo
      · have rest := h.closeGap_spec hi
        rw [if_pos late]
        refine ⟨rest.1, fun v => ?_⟩
        rw [rest.2 v]
        grind [Interval.Covers]
      · have small' : r.hi ≠ Int64.maxValue := small.1 (Int64.not_lt.mp late)
        have rest := ih sorted small.2 (h.addGap proper small')
          (Int64.le_trans above (le_behind next small').1)
        rw [if_neg late]
        refine ⟨rest.1, fun v => ?_⟩
        rw [rest.2 v, h.mem_addGap, behind_le_iff next small']
        grind [Interval.Covers]

/-! ## Wrapping around -/

/-- The search passes over the ranges before a symbol and finds it in the last range but one. -/
theorem contains_of_passed {front back : List Interval} {v : Int64} (covers : r.Covers v)
    (passed : ∀ q ∈ front, q.lo ≤ v ∧ q.hi < v) (few : back.length ≤ 1) :
    contains ⟨front ++ r :: back⟩ v = true := by
  have length : (front ++ r :: back).length = front.length + 1 + back.length := by
    simp only [List.length_append, List.length_cons]
    omega
  -- the half to the right is searched until the range itself is in the middle
  have search (left first : Nat) (start : first + left = front.length) :
      searchBetween (front ++ r :: back) v first (front ++ r :: back).length = true := by
    induction left using Nat.strongRecOn generalizing first with
    | ind left ih =>
      rw [searchBetween, if_pos (by omega)]
      dsimp only
      generalize middle : (first + ((front ++ r :: back).length - 1)) / 2 = mid
      by_cases here : mid = front.length
      · have found : (front ++ r :: back)[mid]? = some r := by simp [here]
        rw [found]
        simp [Int64.not_lt.mpr covers.1, Int64.not_lt.mpr covers.2]
      · have earlier : mid < front.length := by omega
        have found : (front ++ r :: back)[mid]? = some front[mid] := by
          rw [List.getElem?_append_left earlier, List.getElem?_eq_getElem earlier]
        have pass := passed front[mid] (List.getElem_mem earlier)
        rw [found]
        simp only [Int64.not_lt.mpr pass.1, pass.2, if_false, if_true]
        exact ih (front.length - (mid + 1)) (by omega) (mid + 1) (by omega)
  exact search front.length 0 (Nat.zero_add _)

theorem Trails.passed (h : out.Trails next) (proper : next ≤ hi) :
    ∀ q ∈ out.ranges, q.lo ≤ hi ∧ q.hi < hi := by
  intro q member
  have gap := h.before q member
  have nonempty := h.canonical.nonempty q member
  simp only [Int64.lt_iff_toInt_lt, Int64.le_iff_toInt_le] at *
  omega

/-- A gap that starts again where the one before it did is still found by its last symbol. It replaces
that gap, or stands right in front of it if its own end has no successor, or right behind it if its start
has no predecessor. -/
theorem Trails.contains_again {last : Int64} (h : out.Trails next) (gap : next ≤ last)
    (short : last < hi) : ((out.insertRange next last).insertRange next hi).contains hi = true := by
  have proper : next ≤ hi := Int64.le_trans gap (Int64.le_of_lt short)
  have covers : Interval.Covers ⟨next, hi⟩ hi := ⟨proper, Int64.le_refl hi⟩
  have passed := h.passed proper
  rw [h.insertRange_eq gap]
  by_cases least : next = Int64.minValue
  · have greatest : next - 1 = Int64.maxValue := by
      rw [least]
      decide
    have early : ∀ q ∈ out.ranges ++ [⟨next, last⟩], q.hi < next - 1 := by
      rw [List.forall_mem_append, List.forall_mem_singleton, greatest]
      exact ⟨greatest ▸ h.lt_pred, Int64.lt_of_lt_of_le short (Int64.le_maxValue hi)⟩
    rw [insertRange_last proper early]
    refine contains_of_passed covers ?_ (by simp)
    rw [List.forall_mem_append, List.forall_mem_singleton]
    exact ⟨passed, proper, short⟩
  · have late : ¬ last < next - 1 := by
      have above : Int64.minValue < next := by grind
      have pred := toInt_pred above
      rw [Int64.le_iff_toInt_le] at gap
      rw [Int64.lt_iff_toInt_lt]
      omega
    rw [insertRange_append proper h.lt_pred (by simpa using late), absorb]
    split
    · rw [if_neg Int64.lt_irrefl, if_neg (Int64.not_lt.mpr (Int64.le_of_lt short)), absorb]
      exact contains_of_passed covers passed (by simp)
    · exact contains_of_passed covers passed (by simp)

theorem Trails.contains_wrapped (h : out.Trails next) (proper : next ≤ hi) (start : r.lo ≤ hi) :
    ((IntervalSet.addGap next r out).insertRange next hi).contains hi = true := by
  unfold IntervalSet.addGap
  split
  · next less =>
    have short : r.lo - 1 < hi := by
      have pred := toInt_pred less
      rw [Int64.le_iff_toInt_le] at start
      rw [Int64.lt_iff_toInt_lt]
      omega
    exact h.contains_again ((le_pred_iff less).mpr less) short
  · rw [h.insertRange_eq proper]
    exact contains_of_passed ⟨proper, Int64.le_refl hi⟩ (h.passed proper) (by simp)

/-- A range that ends with the greatest symbol is the last one of a canonical set, so the gaps in front
of all others are collected before it. -/
theorem contains_gaps_of_wraps (sorted : Canonical ⟨rs⟩) (h : out.Trails next) (above : lo ≤ next)
    (proper : next ≤ hi) (wraps : ∃ r ∈ rs, r.lo ≤ hi ∧ r.hi = Int64.maxValue) :
    (gaps lo hi next rs out).contains hi = true := by
  induction rs generalizing next out with
  | nil => simp at wraps
  | cons r rs ih =>
    obtain ⟨ordered, before, sorted⟩ := sorted.cons
    obtain ⟨q, member, start, greatest⟩ := wraps
    rw [gaps_cons]
    rcases List.mem_cons.mp member with rfl | member
    · have last : rs = [] := by
        cases rs with
        | nil => rfl
        | cons p rs =>
          have beyond := (before p List.mem_cons_self).1
          rw [greatest] at beyond
          exact absurd (Int64.le_maxValue p.lo) (Int64.not_le.mpr beyond)
      have stays : behind next q = next := by
        rw [behind, greatest]
        exact if_neg (Int64.not_lt.mpr (Int64.minValue_le next))
      rw [last, greatest, if_neg (Int64.not_lt.mpr (Int64.le_maxValue lo)),
        if_neg (Int64.not_lt.mpr start), stays, gaps, closeGap, if_pos proper]
      exact h.contains_wrapped proper start
    · have inside : r.hi < hi := Int64.lt_of_lt_of_le (before q member).1 start
      have wraps : ∃ r ∈ rs, r.lo ≤ hi ∧ r.hi = Int64.maxValue := ⟨q, member, start, greatest⟩
      by_cases early : r.hi < lo
      · rw [if_pos early]
        exact ih sorted h above proper wraps
      · have small : r.hi ≠ Int64.maxValue := by grind
        rw [if_neg early, if_neg (Int64.not_lt.mpr (Int64.le_trans ordered (Int64.le_of_lt inside)))]
        exact ih sorted (h.addGap ordered small) (Int64.le_trans above (le_behind next small).1)
          ((behind_le_iff next small).mpr ⟨proper, inside⟩) wraps

end

/-! ## Complements -/

section

variable {s : IntervalSet} {lo hi : Int64}

theorem mem_complement_iff (canonical : s.Canonical)
    (small : ∀ r ∈ s.ranges, r.lo ≤ hi → r.hi ≠ Int64.maxValue) :
    (s.complement lo hi).Canonical ∧
      ∀ v, v ∈ s.complement lo hi ↔ lo ≤ v ∧ v ≤ hi ∧ ¬ v ∈ s := by
  have spec := gaps_spec canonical small (trails_empty lo) (Int64.le_refl lo)
  refine ⟨spec.1, fun v => (spec.2 v).trans ?_⟩
  simp [mem_iff (s := s)]

theorem contains_complement_iff (canonical : s.Canonical)
    (small : ∀ r ∈ s.ranges, r.lo ≤ hi → r.hi ≠ Int64.maxValue) (v : Int64) :
    (s.complement lo hi).contains v = true ↔ lo ≤ v ∧ v ≤ hi ∧ s.contains v = false := by
  obtain ⟨canonical', members⟩ := mem_complement_iff canonical small
  rw [contains_iff_mem canonical', members v, ← Bool.not_eq_true, contains_iff_mem canonical]

/-- The upper bound is a member of a range that reaches over it. -/
theorem not_exact_of_wraps (canonical : s.Canonical) (proper : lo ≤ hi)
    (wraps : ∃ r ∈ s.ranges, r.lo ≤ hi ∧ r.hi = Int64.maxValue) :
    (s.complement lo hi).contains hi = true ∧ s.contains hi = true := by
  refine ⟨contains_gaps_of_wraps canonical (trails_empty lo) (Int64.le_refl lo) proper wraps, ?_⟩
  obtain ⟨r, member, start, greatest⟩ := wraps
  rw [contains_iff_mem canonical]
  exact ⟨r, member, start, greatest ▸ Int64.le_maxValue hi⟩

theorem Canonical.le_last (canonical : s.Canonical) {r last : Interval} (member : r ∈ s.ranges)
    (isLast : last ∈ s.ranges.getLast?) : r.hi ≤ last.hi := by
  obtain ⟨front, split⟩ := List.getLast?_eq_some_iff.mp isLast
  have sorted := canonical.sorted
  have nonempty := canonical.nonempty last (List.mem_of_getLast? isLast)
  rw [split] at member sorted
  rcases List.mem_append.mp member with earlier | same
  · have before := (List.pairwise_append.mp sorted).2.2 r earlier last List.mem_cons_self
    exact Int64.le_of_lt (Int64.lt_of_lt_of_le before.1 nonempty)
  · cases List.mem_singleton.mp same
    exact Int64.le_refl _

end

/-- A complement is exact if and only if no range that starts at or below the upper bound ends with the
greatest symbol, and then it is canonical. So in every automaton whose alphabet does not hold the greatest
symbol, a transition with a complemented label matches exactly the symbols of the alphabet outside its
label. -/
theorem complement_exact_iff (slot : Slot) (canonical : slot.read.Canonical) :
    (∀ lo hi : Int64, lo ≤ hi →
      ((∀ v, (slot.read.complement lo hi).contains v = true ↔
          lo ≤ v ∧ v ≤ hi ∧ slot.read.contains v = false) ↔
        ∀ r ∈ slot.read.ranges, r.lo ≤ hi → r.hi ≠ Int64.maxValue) ∧
      ((∀ r ∈ slot.read.ranges, r.lo ≤ hi → r.hi ≠ Int64.maxValue) →
        (slot.read.complement lo hi).Canonical)) ∧
    ∀ a : Automaton, a.Assembled → a.maxSymbol < Int64.maxValue →
      ∀ n target : Nat, .notSet target slot ∈ a.transitionsAt n →
        (∀ v, a.alphabet.contains v = true ↔ 1 ≤ v ∧ v ≤ a.maxSymbol) ∧
        ∃ label, a.symbolLabel (.notSet target slot) = some label ∧
          ∀ v, label.contains v = true ↔ a.alphabet.contains v = true ∧ slot.read.contains v = false := by
  constructor
  · intro lo hi proper
    refine ⟨⟨fun exact r member start greatest => ?_, contains_complement_iff canonical⟩,
      fun small => (mem_complement_iff canonical small).1⟩
    obtain ⟨found, held⟩ := not_exact_of_wraps canonical proper ⟨r, member, start, greatest⟩
    have free := ((exact hi).mp found).2.2
    rw [held] at free
    cases free
  · intro a assembled below n target member
    have letters (v : Int64) : a.alphabet.contains v = true ↔ 1 ≤ v ∧ v ≤ a.maxSymbol := by
      have least : Int64.minValue < Symbol.firstUser := by decide
      have alphabet : a.alphabet.Canonical := canonical_empty.insertRange least below
      rw [contains_iff_mem alphabet, Automaton.alphabet, range, mem_insertRange canonical_empty least below]
      simp [Symbol.firstUser]
    have small : ∀ r ∈ slot.read.ranges, r.lo ≤ a.maxSymbol → r.hi ≠ Int64.maxValue := by
      intro r inside _ greatest
      -- the alphabet was widened to the last range of the label
      obtain ⟨last, isLast⟩ :=
        Option.isSome_iff_exists.mp (List.getLast?_isSome.mpr (List.ne_nil_of_mem inside))
      have reached := assembled.spans n target slot member last isLast
      have bound := Int64.le_trans (canonical.le_last inside isLast) reached
      rw [greatest] at bound
      exact absurd below (Int64.not_lt.mpr bound)
    refine ⟨letters, _, rfl, fun v => ?_⟩
    rw [letters, and_assoc]
    exact contains_complement_iff canonical small v

/-- Ranges up to both ends. -/
def rims : IntervalSet := ⟨[⟨Int64.minValue, -5⟩, ⟨3, 4⟩, ⟨9, Int64.maxValue⟩]⟩

/-- A rule of one token that is neither `2` nor `3`, and at most `6`. -/
def neitherOfTwo : Automaton :=
  ((Automaton.empty.addRule "Other").connect 0 (.notSet 1 (some (range 2 3)))).widen 6

theorem complement_exact_iff_rims :
    rims.Canonical ∧
    (∀ v, (rims.complement Int64.minValue 8).contains v = true ↔
      Int64.minValue ≤ v ∧ v ≤ 8 ∧ rims.contains v = false) ∧
    (rims.complement Int64.minValue 8) = ⟨[⟨-4, 2⟩, ⟨5, 8⟩]⟩ ∧
    (¬ ∀ v, (rims.complement 5 Int64.maxValue).contains v = true ↔
      5 ≤ v ∧ v ≤ Int64.maxValue ∧ rims.contains v = false) ∧
    (range 2 3).Canonical ∧ neitherOfTwo.Assembled ∧ neitherOfTwo.maxSymbol = 6 ∧
    .notSet 1 (some (range 2 3)) ∈ neitherOfTwo.transitionsAt 0 ∧
    ∃ label, neitherOfTwo.symbolLabel (.notSet 1 (some (range 2 3))) = some label ∧
      ∀ v, label.contains v = true ↔
        neitherOfTwo.alphabet.contains v = true ∧ (range 2 3).contains v = false := by
  have canonical : rims.Canonical := canonical_iff_isChain.mpr ⟨by decide, by decide⟩
  have sets := (complement_exact_iff (some rims) canonical).1
  have canonical' : (range 2 3).Canonical := canonical_empty.insertRange (by decide) (by decide)
  have assembled : neitherOfTwo.Assembled := .widen (.connect (.addRule .empty _) _ _) _
  have member : .notSet 1 (some (range 2 3)) ∈ neitherOfTwo.transitionsAt 0 := by decide
  have labels := (complement_exact_iff (some (range 2 3)) canonical').2 neitherOfTwo assembled
    (by decide) 0 1 member
  have wraps : ¬ ∀ r ∈ rims.ranges, r.lo ≤ Int64.maxValue → r.hi ≠ Int64.maxValue := by decide
  exact ⟨canonical, (sets Int64.minValue 8 (by decide)).1.mpr (by decide), by decide,
    fun exact => wraps ((sets 5 Int64.maxValue (by decide)).1.mp exact), canonical', assembled,
    by decide, member, labels.2⟩

end IntervalSet

end GrammarCompletion
