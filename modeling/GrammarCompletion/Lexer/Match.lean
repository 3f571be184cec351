import GrammarCompletion.Ebnf.Expr
import GrammarCompletion.Unseen

/-!
# Matching expressions

An expression is matched greedily at a spot of a text; the answer is the number of bytes matched,
and zero means no match. Results for names are remembered. A name met again while it is being
matched at the same spot does not match there, so matching ends under any recursion.
-/

namespace GrammarCompletion.Lexer

open Ebnf

structure Spot where
  offset : Nat
  rest : Bytes

namespace Spot

def advance : Nat → Spot → Spot
  | 0, s => s
  | _ + 1, ⟨offset, []⟩ => ⟨offset, []⟩
  | n + 1, ⟨offset, _ :: rest⟩ => advance n ⟨offset + 1, rest⟩

theorem length_advance_le (n : Nat) (s : Spot) :
    (advance n s).rest.length ≤ s.rest.length := by
  fun_induction advance n s with
  | case1 s => exact Nat.le_refl _
  | case2 => exact Nat.le_refl _
  | case3 n offset b rest ih => exact Nat.le_succ_of_le ih

theorem advance_eq_or_lt (n : Nat) (s : Spot) :
    advance n s = s ∨ (advance n s).rest.length < s.rest.length := by
  match n, s with
  | 0, _ => exact Or.inl (by simp [advance])
  | _ + 1, ⟨offset, []⟩ => exact Or.inl (by simp [advance])
  | n + 1, ⟨offset, b :: rest⟩ =>
    have bound := length_advance_le n ⟨offset + 1, rest⟩
    simp only [advance, List.length_cons]
    exact Or.inr (Nat.lt_succ_of_le bound)

theorem length_advance_lt {n : Nat} {s : Spot} (positive : n ≠ 0) (more : s.rest ≠ []) :
    (advance n s).rest.length < s.rest.length := by
  match n, s with
  | 0, _ => exact absurd rfl positive
  | _ + 1, ⟨_, []⟩ => exact absurd rfl more
  | n + 1, ⟨offset, b :: rest⟩ =>
    exact Nat.lt_succ_of_le (length_advance_le n ⟨offset + 1, rest⟩)

end Spot

structure Key where
  name : Bytes
  offset : Nat
  deriving DecidableEq

/-- How much each name matched at each offset. -/
abbrev Memo := List (Key × Nat)

namespace Memo

def find? : Memo → Key → Option Nat
  | [], _ => none
  | (k, n) :: rest, key =>
    if k.offset = key.offset ∧ k.name = key.name then some n else find? rest key

end Memo

/-! ## Leaves -/

/-- The length of a fixed text at the front; the empty text matches nothing. -/
def literalLength (text rest : Bytes) : Nat := if text.isPrefixOf rest then text.length else 0

/-- One if the first byte lies between two single bytes. -/
def rangeLength (first last rest : Bytes) : Nat :=
  match first, last, rest with
  | [lo], [hi], b :: _ => if lo ≤ b ∧ b ≤ hi then 1 else 0
  | _, _, _ => 0

/-- Whether an expression may match nothing inside a sequence. -/
def isOptional : Expr → Bool
  | .option _ | .repetition _ => true
  | _ => false

/-! ## Measure

A step forward frees all names to be visited again, so a byte weighs more than all of them. -/

mutual

def exprSize : Expr → Nat
  | .literal _ | .range _ _ | .name _ => 1
  | .sequence items | .alternative items => exprSizes items + 1
  | .group body | .option body => exprSize body + 1
  | .repetition body => exprSize body + 2

def exprSizes : List Expr → Nat
  | [] => 0
  | x :: rest => exprSize x + exprSizes rest + 1

end

def productionSize (p : Production) : Nat := (p.body.map exprSize).getD 0 + 1

def sourceSize (source : Source) : Nat := unseen source productionSize fun _ => false

/-- The work left at a spot while some names are being visited. -/
def budget (source : Source) (visiting : List Key) (s : Spot) : Nat :=
  s.rest.length * (sourceSize source + 1) +
    unseen source productionSize fun p => visiting.contains ⟨p.name.text, s.offset⟩

theorem budget_lt_of_shorter (source : Source) (visiting visiting' : List Key) {s t : Spot}
    (shorter : t.rest.length < s.rest.length) :
    budget source visiting' t < budget source visiting s := by
  have most : unseen source productionSize
      (fun p => visiting'.contains ⟨p.name.text, t.offset⟩) ≤ sourceSize source :=
    unseen_mono source productionSize fun _ seen => by simp at seen
  have bytes := Nat.mul_le_mul_right (sourceSize source + 1) (Nat.succ_le_of_lt shorter)
  rw [Nat.succ_mul] at bytes
  unfold budget
  omega

theorem budget_advance_le (source : Source) (visiting : List Key) (n : Nat) (s : Spot) :
    budget source visiting (s.advance n) ≤ budget source visiting s := by
  rcases Spot.advance_eq_or_lt n s with same | shorter
  · exact Nat.le_of_eq (by rw [same])
  · exact Nat.le_of_lt (budget_lt_of_shorter source visiting visiting shorter)

theorem budget_visit_le {source : Source} {visiting : List Key} {s : Spot} {name : Bytes}
    {p : Production} (found : source.find? name = some p)
    (isNew : visiting.contains ⟨name, s.offset⟩ = false) :
    budget source (⟨name, s.offset⟩ :: visiting) s + productionSize p ≤
      budget source visiting s := by
  have member := List.mem_of_find?_eq_some found
  have named : p.name.text = name := by simpa using List.find?_some found
  have less : unseen source productionSize
        (fun q => (⟨name, s.offset⟩ :: visiting : List Key).contains ⟨q.name.text, s.offset⟩) +
          productionSize p ≤
      unseen source productionSize (fun q => visiting.contains ⟨q.name.text, s.offset⟩) :=
    unseen_add_weight_le member (by simpa [named] using isNew) (by simp [named])
      (by intro q seen; simp at seen ⊢; exact Or.inr seen)
  unfold budget
  omega

/-! ## Matching -/

mutual

/-- The length an expression matches at a spot, with what is remembered afterwards. -/
def matchExpr (source : Source) (visiting : List Key) (e : Expr) (s : Spot) (memo : Memo) :
    Nat × Memo :=
  match e with
  | .literal text => (literalLength text.text s.rest, memo)
  | .range first last => (rangeLength first.text last.text s.rest, memo)
  | .name n => matchName source visiting n.text s memo
  | .sequence items => matchSequence source visiting 0 items s memo
  | .alternative items => matchLongest source visiting items s memo
  | .group body => matchExpr source visiting body s memo
  | .option body => matchExpr source visiting body s memo
  | .repetition body => matchRepetition source visiting body s memo
termination_by budget source visiting s + exprSize e
decreasing_by all_goals simp only [exprSize]; omega

/-- One after the other behind a length already matched; the total, or zero if one that must match
does not. -/
def matchSequence (source : Source) (visiting : List Key) (total : Nat) (items : List Expr)
    (s : Spot) (memo : Memo) : Nat × Memo :=
  match items with
  | [] => (total, memo)
  | x :: rest =>
    let (n, memo) := matchExpr source visiting x s memo
    if n = 0 ∧ !isOptional x then (0, memo)
    else matchSequence source visiting (total + n) rest (s.advance n) memo
termination_by budget source visiting s + exprSizes items
decreasing_by
  · simp only [exprSizes]
    omega
  · have bound := budget_advance_le source visiting n s
    simp only [exprSizes]
    omega

def matchLongest (source : Source) (visiting : List Key) (items : List Expr) (s : Spot)
    (memo : Memo) : Nat × Memo :=
  match items with
  | [] => (0, memo)
  | x :: rest =>
    let (n, memo) := matchExpr source visiting x s memo
    let (best, memo) := matchLongest source visiting rest s memo
    (max n best, memo)
termination_by budget source visiting s + exprSizes items
decreasing_by all_goals simp only [exprSizes]; omega

def matchRepetition (source : Source) (visiting : List Key) (body : Expr) (s : Spot)
    (memo : Memo) : Nat × Memo :=
  let (n, memo) := matchExpr source visiting body s memo
  if _more : n ≠ 0 ∧ s.rest ≠ [] then
    let (total, memo) := matchRepetition source visiting body (s.advance n) memo
    (n + total, memo)
  else (n, memo)
termination_by budget source visiting s + exprSize body + 1
decreasing_by
  · omega
  · have less := budget_lt_of_shorter source visiting visiting
      (Spot.length_advance_lt _more.1 _more.2)
    omega

def matchName (source : Source) (visiting : List Key) (name : Bytes) (s : Spot) (memo : Memo) :
    Nat × Memo :=
  match memo.find? ⟨name, s.offset⟩ with
  | some n => (n, memo)
  | none =>
    if _isNew : visiting.contains ⟨name, s.offset⟩ = false then
      match _found : source.find? name with
      | none => (0, (⟨name, s.offset⟩, 0) :: memo)
      | some p =>
        match _body : p.body with
        | none => (0, (⟨name, s.offset⟩, 0) :: memo)
        | some e =>
          let (n, memo) := matchExpr source (⟨name, s.offset⟩ :: visiting) e s memo
          (n, (⟨name, s.offset⟩, n) :: memo)
    -- a name that is being matched here does not match, which is not remembered
    else (0, memo)
termination_by budget source visiting s
decreasing_by
  have less := budget_visit_le _found _isNew
  simp only [productionSize, _body, Option.map_some, Option.getD_some] at less
  omega

end

end GrammarCompletion.Lexer
