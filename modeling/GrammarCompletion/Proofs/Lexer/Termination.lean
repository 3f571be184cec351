import GrammarCompletion.Proofs.Lexer.Greedy
import Mathlib.Data.Finset.Basic
import Mathlib.Data.Finset.Dedup

/-!
# The matcher ends inside the text

The matcher passes the names being visited down as an argument, does not go on past the end of the text,
and stops a repetition there. `attempt` is the matcher without these guards: it counts offsets in the whole
text, and the names being visited are part of what it changes, marked when a production is entered and
unmarked when it is left. Nothing but the depth of its calls is bounded. Both do the same for every
grammar, whatever is remembered before, as long as no remembered length reaches past the end of the text:
no length found ever does, and every call has less to do than the one it is made in.
-/

namespace GrammarCompletion.Lexer

open Ebnf

/-! ## The matcher without guards -/

def literalAt (text word : Bytes) (offset : Nat) : Nat :=
  if word = [] ∨ text.length < offset + word.length then 0
  else if (text.drop offset).take word.length = word then word.length
  else 0

def rangeAt (text first last : Bytes) (offset : Nat) : Nat :=
  match first, last, text[offset]? with
  | [lo], [hi], some b => if lo ≤ b ∧ b ≤ hi then 1 else 0
  | _, _, _ => 0

/-- What the matcher changes: the names being visited, each at its offset, and the lengths it remembers. -/
structure Notes where
  visiting : Finset Key
  memo : Memo

namespace Notes

def mark (key : Key) (notes : Notes) : Notes := { notes with visiting := insert key notes.visiting }

def unmark (key : Key) (notes : Notes) : Notes := { notes with visiting := notes.visiting.erase key }

def remember (key : Key) (n : Nat) (notes : Notes) : Notes := { notes with memo := (key, n) :: notes.memo }

end Notes

/-- Match at an offset of a text. There is no result if calls nest deeper than `depth`. -/
def attempt (source : Source) (text : Bytes) :
    (depth : Nat) → Part → (offset : Nat) → Notes → Option (Nat × Notes)
  | 0, _, _, _ => none
  | depth + 1, .expr e, offset, notes =>
    match e with
    | .literal word => some (literalAt text word.text offset, notes)
    | .range first last => some (rangeAt text first.text last.text offset, notes)
    | .name n => attempt source text depth (.name n.text) offset notes
    | .sequence items => attempt source text depth (.sequence 0 items) offset notes
    | .alternative items => attempt source text depth (.longest items) offset notes
    | .group body => attempt source text depth (.expr body) offset notes
    | .option body => attempt source text depth (.expr body) offset notes
    | .repetition body => attempt source text depth (.repetition body) offset notes
  | _ + 1, .sequence total [], _, notes => some (total, notes)
  | depth + 1, .sequence total (x :: items), offset, notes => do
    let first ← attempt source text depth (.expr x) offset notes
    if first.1 = 0 ∧ !isOptional x then some (0, first.2)
    else attempt source text depth (.sequence (total + first.1) items) (offset + first.1) first.2
  | _ + 1, .longest [], _, notes => some (0, notes)
  | depth + 1, .longest (x :: items), offset, notes => do
    let first ← attempt source text depth (.expr x) offset notes
    let best ← attempt source text depth (.longest items) offset first.2
    some (max first.1 best.1, best.2)
  | depth + 1, .repetition body, offset, notes => do
    let first ← attempt source text depth (.expr body) offset notes
    if first.1 = 0 then some first
    else
      let others ← attempt source text depth (.repetition body) (offset + first.1) first.2
      some (first.1 + others.1, others.2)
  | depth + 1, .name name, offset, notes =>
    match notes.memo.find? ⟨name, offset⟩ with
    | some n => some (n, notes)
    | none =>
      if ⟨name, offset⟩ ∈ notes.visiting then some (0, notes)
      else
        match source.body? name with
        | none => some (0, notes.remember ⟨name, offset⟩ 0)
        | some body => do
          let inner ← attempt source text depth (.expr body) offset (notes.mark ⟨name, offset⟩)
          some (inner.1, (inner.2.unmark ⟨name, offset⟩).remember ⟨name, offset⟩ inner.1)

/-! ## Leaves -/

theorem literalAt_eq (text word : Bytes) (offset : Nat) :
    literalAt text word offset = literalLength word (text.drop offset) := by
  unfold literalAt literalLength
  by_cases here : word <+: text.drop offset
  · have short := here.length_le
    rw [List.length_drop] at short
    rw [if_pos (List.isPrefixOf_iff_prefix.mpr here)]
    by_cases empty : word = []
    · rw [if_pos (.inl empty), empty]
      rfl
    · have positive := List.length_pos_iff.mpr empty
      rw [if_neg (by rw [not_or]; exact ⟨empty, by omega⟩),
        if_pos (List.prefix_iff_eq_take.mp here).symm]
  · rw [if_neg (mt List.isPrefixOf_iff_prefix.mp here)]
    split
    · rfl
    · rw [if_neg fun same => here (List.prefix_iff_eq_take.mpr same.symm)]

theorem rangeAt_eq (text first last : Bytes) (offset : Nat) :
    rangeAt text first last offset = rangeLength first last (text.drop offset) := by
  have byte : text[offset]? = (text.drop offset).head? := List.head?_drop.symm
  unfold rangeAt rangeLength
  rw [byte]
  cases text.drop offset with
  | nil => split <;> simp_all
  | cons b rest => split <;> simp_all

/-! ## Bounds -/

def Memo.Within (length : Nat) (memo : Memo) : Prop :=
  ∀ key n, memo.find? key = some n → n ≤ length - key.offset

theorem Memo.Within.cons {length : Nat} {memo : Memo} (within : memo.Within length) {key : Key} {n : Nat}
    (short : n ≤ length - key.offset) : Memo.Within length ((key, n) :: memo) := by
  intro other m found
  rcases Memo.find?_cons found with ⟨rfl, rfl⟩ | old
  · exact short
  · exact within other m old

variable {source : Source} {text : Bytes} {visiting : List Key} {part : Part} {s : Spot} {memo : Memo}
  {result : Nat × Memo}

theorem Spot.At.length_rest (here : s.At text) : s.rest.length = text.length - s.offset := by
  rw [show s.rest = text.drop s.offset from here, List.length_drop]

/-- No length reaches past the end of the text if none that is remembered does. -/
theorem Matches.within (h : Matches source visiting part s memo result) (here : s.At text)
    (within : memo.Within text.length) :
    result.1 ≤ part.before + s.rest.length ∧ result.2.Within text.length := by
  induction h with
  | literal _ word s memo =>
    have fits := (literalLength_fits source word s.rest).within
    exact ⟨Nat.le_add_left_of_le fits, within⟩
  | range _ first last s memo =>
    have fits := (rangeLength_fits source first last s.rest).within
    exact ⟨Nat.le_add_left_of_le fits, within⟩
  | name _ ih | sequence _ ih | alternative _ ih | group _ ih | option _ ih | repetition _ ih
  | once _ _ ih => exact ih here within
  | @known visiting name s memo n found =>
    have short := within _ n found
    rw [← here.length_rest] at short
    exact ⟨Nat.le_add_left_of_le short, within⟩
  | cycle => exact ⟨Nat.zero_le _, within⟩
  | missing => exact ⟨Nat.zero_le _, within.cons (Nat.zero_le _)⟩
  | production _ _ _ _ ih =>
    obtain ⟨short, within'⟩ := ih here within
    refine ⟨short, within'.cons ?_⟩
    rw [← here.length_rest]
    exact Nat.le_trans short (Nat.le_of_eq (Nat.zero_add _))
  | done => exact ⟨Nat.le_add_right _ _, within⟩
  | failed _ _ ih => exact ⟨Nat.zero_le _, (ih here within).2⟩
  | @next visiting total n x items s memo memo' result first passed others ih ih' =>
    obtain ⟨short, within'⟩ := ih here within
    obtain ⟨short', within''⟩ := ih' (here.advance n) within'
    simp only [Part.before, Spot.rest_advance, List.length_drop] at short short' ⊢
    exact ⟨by omega, within''⟩
  | noChoice => exact ⟨Nat.zero_le _, within⟩
  | choice _ _ ih ih' =>
    obtain ⟨short, within'⟩ := ih here within
    obtain ⟨short', within''⟩ := ih' here within'
    exact ⟨Nat.max_le.mpr ⟨short, short'⟩, within''⟩
  | @again visiting body n total s memo memo' memo'' first more others ih ih' =>
    obtain ⟨short, within'⟩ := ih here within
    obtain ⟨short', within''⟩ := ih' (here.advance n) within'
    simp only [Part.before, Spot.rest_advance, List.length_drop] at short short' ⊢
    exact ⟨by omega, within''⟩

/-! ## Enough depth -/

/-- How deep the calls for a part can nest at one spot, productions apart. -/
def Part.size : Part → Nat
  | .expr e => exprSize e
  | .name _ => 0
  | .sequence _ items | .longest items => exprSizes items
  | .repetition body => exprSize body + 1

theorem budget_production_lt {name : Bytes} {body : Expr}
    (isNew : visiting.contains ⟨name, s.offset⟩ = false) (defined : source.body? name = some body) :
    budget source (⟨name, s.offset⟩ :: visiting) s + exprSize body < budget source visiting s := by
  obtain ⟨p, found, bodied⟩ := Option.bind_eq_some_iff.mp defined
  have less := budget_visit_le found isNew
  simp only [productionSize, bodied, Option.map_some, Option.getD_some] at less
  omega

theorem not_mem_toFinset {key : Key} (isNew : visiting.contains key = false) : key ∉ visiting.toFinset := by
  intro member
  rw [List.contains_iff_mem.mpr (List.mem_toFinset.mp member)] at isNew
  cases isNew

theorem Notes.unmark_mark {key : Key} (isNew : visiting.contains key = false) (memo : Memo) :
    unmark key ⟨(key :: visiting).toFinset, memo⟩ = ⟨visiting.toFinset, memo⟩ := by
  rw [unmark, List.toFinset_cons, Finset.erase_insert (not_mem_toFinset isNew)]

theorem offset_advance_of_le {n : Nat} (short : n ≤ s.rest.length) :
    (s.advance n).offset = s.offset + n := by
  rw [Spot.offset_advance, Nat.min_eq_left short]

/-- The matcher without guards finds the same, and leaves the names being visited as they were. -/
theorem Matches.attempt_eq (h : Matches source visiting part s memo result) (here : s.At text)
    (within : memo.Within text.length) (depth : Nat)
    (enough : budget source visiting s + part.size ≤ depth) :
    attempt source text (depth + 1) part s.offset ⟨visiting.toFinset, memo⟩ =
      some (result.1, ⟨visiting.toFinset, result.2⟩) := by
  induction h generalizing depth with
  | literal _ word s memo => rw [attempt, literalAt_eq, ← show s.rest = text.drop s.offset from here]
  | range _ first last s memo => rw [attempt, rangeAt_eq, ← show s.rest = text.drop s.offset from here]
  | name _ ih | sequence _ ih | alternative _ ih | group _ ih | option _ ih | repetition _ ih =>
    simp only [Part.size, exprSize] at enough
    obtain ⟨depth, rfl⟩ : ∃ d, depth = d + 1 := Nat.exists_eq_add_one_of_ne_zero (by omega)
    rw [attempt]
    exact ih here within depth (by simp only [Part.size]; omega)
  | known _ found =>
    rw [attempt]
    simp only [found]
  | cycle unknown active =>
    have marked := List.mem_toFinset.mpr (List.contains_iff_mem.mp active)
    rw [attempt]
    simp only [unknown, if_pos marked]
  | missing unknown isNew undefined =>
    rw [attempt]
    simp only [unknown, if_neg (not_mem_toFinset isNew), undefined, Notes.remember]
  | @production visiting name body s memo memo' n unknown isNew defined h ih =>
    have less := budget_production_lt isNew defined
    obtain ⟨depth, rfl⟩ : ∃ d, depth = d + 1 := Nat.exists_eq_add_one_of_ne_zero (by omega)
    have inner := ih here within depth (by simp only [Part.size] at enough ⊢; omega)
    rw [attempt]
    simp only [unknown, if_neg (not_mem_toFinset isNew), defined, Notes.mark, ← List.toFinset_cons, inner,
      Option.bind_eq_bind, Option.bind_some, Notes.unmark_mark isNew, Notes.remember]
  | done => rw [attempt]
  | @failed visiting total n x items s memo memo' first fail ih =>
    simp only [Part.size, exprSizes] at enough
    obtain ⟨depth, rfl⟩ : ∃ d, depth = d + 1 := Nat.exists_eq_add_one_of_ne_zero (by omega)
    have item := ih here within depth (by simp only [Part.size]; omega)
    rw [attempt, item, Option.bind_eq_bind, Option.bind_some, if_pos fail]
  | @next visiting total n x items s memo memo' result first passed others ih ih' =>
    have less := budget_advance_le source visiting n s
    simp only [Part.size, exprSizes] at enough
    obtain ⟨depth, rfl⟩ : ∃ d, depth = d + 1 := Nat.exists_eq_add_one_of_ne_zero (by omega)
    have item := ih here within depth (by simp only [Part.size]; omega)
    obtain ⟨short, within'⟩ := first.within here within
    have behind := ih' (here.advance n) within' depth (by simp only [Part.size]; omega)
    rw [offset_advance_of_le (by simpa [Part.before] using short)] at behind
    rw [attempt, item, Option.bind_eq_bind, Option.bind_some, if_neg passed]
    exact behind
  | noChoice => rw [attempt]
  | @choice visiting n best x items s memo memo' memo'' first others ih ih' =>
    simp only [Part.size, exprSizes] at enough
    obtain ⟨depth, rfl⟩ : ∃ d, depth = d + 1 := Nat.exists_eq_add_one_of_ne_zero (by omega)
    have item := ih here within depth (by simp only [Part.size]; omega)
    have behind := ih' here (first.within here within).2 depth (by simp only [Part.size]; omega)
    rw [attempt, item, Option.bind_eq_bind, Option.bind_some, behind, Option.bind_some]
  | @again visiting body n total s memo memo' memo'' first more others ih ih' =>
    have less := budget_lt_of_shorter source visiting visiting (Spot.length_advance_lt more.1 more.2)
    simp only [Part.size] at enough
    obtain ⟨depth, rfl⟩ : ∃ d, depth = d + 1 := Nat.exists_eq_add_one_of_ne_zero (by omega)
    have item := ih here within depth (by simp only [Part.size]; omega)
    obtain ⟨short, within'⟩ := first.within here within
    have behind := ih' (here.advance n) within' depth (by simp only [Part.size]; omega)
    rw [offset_advance_of_le (by simpa [Part.before] using short)] at behind
    rw [attempt, item, Option.bind_eq_bind, Option.bind_some, if_neg more.1, behind, Option.bind_some]
  | @once visiting body n s memo memo' first stop ih =>
    simp only [Part.size] at enough
    obtain ⟨depth, rfl⟩ : ∃ d, depth = d + 1 := Nat.exists_eq_add_one_of_ne_zero (by omega)
    have item := ih here within depth (by simp only [Part.size]; omega)
    -- at the end of the text nothing is left to match
    have zero : n = 0 := by
      have short := (first.within here within).1
      rw [← List.length_pos_iff] at stop
      simp only [Part.before] at short
      omega
    rw [attempt, item, Option.bind_eq_bind, Option.bind_some, if_pos zero]

/-! ## The matcher -/

/-- Matching any expression at any offset of a text, under any grammar, ends: without guards it nests no
deeper than a measure of what is left to do, finds what the matcher finds, and leaves the names being
visited as they were. Lengths stay inside the text if all that is remembered does, and then so does all
that is remembered afterwards. -/
theorem matcher_ends_inside_text (source : Source) (text : Bytes) (e : Expr) (offset : Nat)
    (visiting : List Key) {memo : Memo} (within : memo.Within text.length) :
    let here : Spot := ⟨offset, text.drop offset⟩
    let result := matchExpr source visiting e here memo
    (∀ depth, budget source visiting here + exprSize e < depth →
      attempt source text depth (.expr e) offset ⟨visiting.toFinset, memo⟩ =
        some (result.1, ⟨visiting.toFinset, result.2⟩)) ∧
    result.1 ≤ text.length - offset ∧ result.2.Within text.length := by
  intro here result
  have inText : here.At text := rfl
  have run : Matches source visiting (.expr e) here memo result :=
    matchExpr_matches source visiting e here memo
  obtain ⟨short, within'⟩ := run.within inText within
  refine ⟨fun depth enough => ?_, ?_, within'⟩
  · obtain ⟨depth, rfl⟩ := Nat.exists_eq_add_one_of_ne_zero (Nat.ne_zero_of_lt enough)
    exact run.attempt_eq inText within depth (Nat.le_of_lt_succ enough)
  · rw [inText.length_rest] at short
    simpa [Part.before] using short

/-- A list that starts with itself, an item that does so behind any number of gaps that may be empty, and
two names that start with each other, one of them or with a name that stands for nothing. -/
def selfStarting : Source :=
  let name (text : Bytes) : Expr := .name (.unplaced text)
  let word (text : Bytes) : Expr := .literal (.unplaced text)
  [⟨.unplaced "list", some (.alternative [.sequence [name "list", word ",", name "item"], name "item"])⟩,
    ⟨.unplaced "item", some (.alternative
      [.sequence [.repetition (name "gap"), name "item", word "+"], .range (.unplaced "a") (.unplaced "z"),
        name "left"])⟩,
    ⟨.unplaced "gap", some (.option (word " "))⟩,
    ⟨.unplaced "left", some (.sequence [name "right", word "."])⟩,
    ⟨.unplaced "right", some (.alternative [.sequence [name "left", word "!"], name "nothing", word "-"])⟩,
    ⟨.unplaced "pair", some (.sequence [name "list", .repetition (.group (name "list"))])⟩]

theorem matcher_ends_inside_text_selfStarting :
    let e : Expr := .name (.unplaced "pair")
    let visiting : List Key := [⟨"pair", 4⟩, ⟨"gap", 0⟩]
    let memo : Memo := [(⟨"item", 0⟩, 2), (⟨"item", 6⟩, 0)]
    let result := matchExpr selfStarting visiting e ⟨0, "-.b  c+"⟩ memo
    memo.Within 7 ∧
      attempt selfStarting "-.b  c+" 1000 (.expr e) 0 ⟨visiting.toFinset, memo⟩ =
        some (result.1, ⟨visiting.toFinset, result.2⟩) ∧
      result.1 = 7 ∧ result.2.Within 7 := by
  intro e visiting memo result
  have none : Memo.Within 7 [] := fun _ _ found => by cases found
  have within : memo.Within 7 := (none.cons (Nat.zero_le _)).cons (by decide)
  obtain ⟨runs, -, within'⟩ := matcher_ends_inside_text selfStarting "-.b  c+" e 0 visiting within
  have run := runs 1000 (by decide +kernel)
  have found :
      (attempt selfStarting "-.b  c+" 1000 (.expr e) 0 ⟨visiting.toFinset, memo⟩).map Prod.fst = some 7 := by
    decide +kernel
  rw [run] at found
  exact ⟨within, run, Option.some.inj found, within'⟩

end GrammarCompletion.Lexer
