/-!
# What is left to see

Searches over a finite collection end because they never look at a member twice. Their measure is
the total weight of the members not seen yet.
-/

namespace GrammarCompletion

/-- The total weight of the members of `all` that are not seen. -/
def unseen (all : List α) (weight : α → Nat) (seen : α → Bool) : Nat :=
  all.foldr (fun x total => (if seen x then 0 else weight x) + total) 0

theorem unseen_mono (all : List α) (weight : α → Nat) {seen later : α → Bool}
    (grows : ∀ y, seen y → later y) : unseen all weight later ≤ unseen all weight seen := by
  induction all with
  | nil => exact Nat.le_refl _
  | cons y ys ih =>
    simp only [unseen, List.foldr_cons] at ih ⊢
    have head : (if later y then 0 else weight y) ≤ (if seen y then 0 else weight y) := by
      have := grows y
      split <;> split <;> simp_all
    omega

theorem unseen_add_weight_le {all : List α} {weight : α → Nat} {seen later : α → Bool} {x : α}
    (member : x ∈ all) (isNew : seen x = false) (isSeen : later x = true)
    (grows : ∀ y, seen y → later y) :
    unseen all weight later + weight x ≤ unseen all weight seen := by
  induction all with
  | nil => cases member
  | cons y ys ih =>
    rcases List.mem_cons.mp member with rfl | inTail
    · have tail := unseen_mono ys weight grows
      simp only [unseen, List.foldr_cons, isNew, isSeen] at tail ⊢
      simp only [↓reduceIte, Bool.false_eq_true]
      omega
    · have tail := ih inTail
      simp only [unseen, List.foldr_cons] at tail ⊢
      have head : (if later y then 0 else weight y) ≤ (if seen y then 0 else weight y) := by
        have := grows y
        split <;> split <;> simp_all
      omega

theorem unseen_lt {all : List α} {weight : α → Nat} {seen later : α → Bool} {x : α}
    (member : x ∈ all) (positive : 0 < weight x) (isNew : seen x = false) (isSeen : later x = true)
    (grows : ∀ y, seen y → later y) : unseen all weight later < unseen all weight seen := by
  have step : unseen all weight later + weight x ≤ unseen all weight seen :=
    unseen_add_weight_le member isNew isSeen grows
  omega

def grid (rows columns : Nat) (make : Nat → Nat → α) : List α :=
  (List.range rows).flatMap fun row => (List.range columns).map (make row)

theorem mem_grid {rows columns row column : Nat} (make : Nat → Nat → α) (inside : row < rows)
    (inside' : column < columns) : make row column ∈ grid rows columns make :=
  List.mem_flatMap.mpr ⟨row, List.mem_range.mpr inside,
    List.mem_map.mpr ⟨column, List.mem_range.mpr inside', rfl⟩⟩

end GrammarCompletion
