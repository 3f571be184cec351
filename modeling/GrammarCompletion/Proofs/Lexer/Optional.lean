import GrammarCompletion.Proofs.Lexer.Greedy

/-!
# Optional parts of a sequence

A length of zero stands for failure and for an empty match. Inside a sequence the matcher tells them apart
by the form of the item: an option or a repetition may match nothing, and everything else must match
something. That is right for every item that does not hide the empty text. A group, a choice, a nested
sequence or a name that stands for the empty text is taken for one that must match something, and stops a
sequence wherever it matches nothing.
-/

namespace GrammarCompletion

namespace Ebnf

/-! ## Expressions that stand for the empty text -/

section

variable {source : Source}

theorem derives_nil_literal {text : Located} : Derives source (.literal text) [] ↔ text.text = [] := by
  constructor
  · intro h
    generalize ([] : Bytes) = w at h ⊢
    cases h
    rfl
  · intro empty
    have derived : Derives source (.literal text) text.text := .literal text
    rwa [empty] at derived

theorem not_derives_nil_range (first last : Located) : ¬ Derives source (.range first last) [] := by
  intro h
  cases h

theorem derives_nil_name {n : Located} :
    Derives source (.name n) [] ↔
      ∃ p, source.find? n.text = some p ∧ ∀ body, p.body = some body → Derives source body [] := by
  constructor
  · intro h
    cases h with
    | name found derived =>
      obtain ⟨p, declared, bodied⟩ := Option.bind_eq_some_iff.mp found
      refine ⟨p, declared, fun body same => ?_⟩
      rw [bodied] at same
      cases same
      exact derived
    | blank found empty =>
      refine ⟨_, found, fun body same => ?_⟩
      rw [empty] at same
      cases same
  · rintro ⟨p, declared, derived⟩
    cases bodied : p.body with
    | none => exact .blank declared bodied
    | some body =>
      have defined : source.body? n.text = some body := by
        rw [Source.body?, declared, Option.bind_some, bodied]
      exact .name defined (derived body bodied)

theorem derives_nil_sequence {items : List Expr} :
    Derives source (.sequence items) [] ↔ ∀ x ∈ items, Derives source x [] := by
  induction items with
  | nil => simpa using Derives.done
  | cons x items ih =>
    rw [List.forall_mem_cons, ← ih]
    constructor
    · intro h
      generalize empty : ([] : Bytes) = w at h
      cases h with
      | next first others =>
        obtain ⟨rfl, rfl⟩ := List.append_eq_nil_iff.mp empty.symm
        exact ⟨first, others⟩
    · intro h
      exact Derives.next h.1 h.2

theorem derives_nil_alternative {items : List Expr} :
    Derives source (.alternative items) [] ↔ ∃ x ∈ items, Derives source x [] := by
  constructor
  · intro h
    cases h with
    | choice member derived => exact ⟨_, member, derived⟩
  · rintro ⟨x, member, derived⟩
    exact .choice member derived

theorem derives_nil_group {body : Expr} :
    Derives source (.group body) [] ↔ Derives source body [] := by
  constructor
  · intro h
    cases h with
    | group derived => exact derived
  · exact .group

/-- The expression does not hide the empty text: it stands for it only if it is an option or a
repetition. -/
def Plain (source : Source) : Expr → Prop
  | .literal text => text.text ≠ []
  | .name n => ∀ p, source.find? n.text = some p → ∃ body, p.body = some body ∧ ¬ Derives source body []
  | .sequence items => ∃ x ∈ items, ¬ Derives source x []
  | .alternative items => ∀ x ∈ items, ¬ Derives source x []
  | .group body => ¬ Derives source body []
  | .range _ _ | .option _ | .repetition _ => True

/-- For plain expressions, and for no others, the form tells whether they stand for the empty text. -/
theorem plain_iff {e : Expr} :
    Plain source e ↔ (Lexer.isOptional e = true ↔ Derives source e []) := by
  cases e with
  | literal text => simp [Plain, Lexer.isOptional, derives_nil_literal]
  | range first last => simp [Plain, Lexer.isOptional, not_derives_nil_range]
  | name n => simp [Plain, Lexer.isOptional, derives_nil_name]
  | sequence items => simp [Plain, Lexer.isOptional, derives_nil_sequence]
  | alternative items => simp [Plain, Lexer.isOptional, derives_nil_alternative]
  | group body => simp [Plain, Lexer.isOptional, derives_nil_group]
  | option body => exact iff_of_true trivial (iff_of_true rfl (.absent body))
  | repetition body => exact iff_of_true trivial (iff_of_true rfl (.never body))

end

end Ebnf

namespace Lexer

open Ebnf

/-! ## The items of a sequence -/

def lengthsAlong (source : Source) (visiting : List Key) : List Expr → Spot → Memo → List Nat
  | [], _, _ => []
  | x :: items, s, memo =>
    let result := matchExpr source visiting x s memo
    result.1 :: lengthsAlong source visiting items (s.advance result.1) result.2

/-- One of the items has to match something, and does not. -/
def Blocked (required : Expr → Prop) (items : List Expr) (lengths : List Nat) : Prop :=
  ∃ (i : Nat) (x : Expr), items[i]? = some x ∧ required x ∧ lengths[i]? = some 0

theorem not_blocked_nil (required : Expr → Prop) (lengths : List Nat) :
    ¬ Blocked required [] lengths := by
  rintro ⟨i, x, found, -⟩
  cases found

theorem blocked_cons {required : Expr → Prop} {x : Expr} {items : List Expr} {n : Nat}
    {lengths : List Nat} :
    Blocked required (x :: items) (n :: lengths) ↔
      (required x ∧ n = 0) ∨ Blocked required items lengths := by
  constructor
  · rintro ⟨i, y, found, needed, zero⟩
    cases i with
    | zero =>
      cases found
      exact .inl ⟨needed, Option.some.inj zero⟩
    | succ i => exact .inr ⟨i, y, found, needed, zero⟩
  · rintro (⟨needed, rfl⟩ | ⟨i, y, found, needed, zero⟩)
    · exact ⟨0, x, rfl, needed, rfl⟩
    · exact ⟨i + 1, y, found, needed, zero⟩

theorem Blocked.congr {required required' : Expr → Prop} {items : List Expr} {lengths : List Nat}
    (same : ∀ x ∈ items, required x ↔ required' x) :
    Blocked required items lengths ↔ Blocked required' items lengths := by
  constructor
  · rintro ⟨i, x, found, needed, zero⟩
    exact ⟨i, x, found, (same x (List.mem_of_getElem? found)).mp needed, zero⟩
  · rintro ⟨i, x, found, needed, zero⟩
    exact ⟨i, x, found, (same x (List.mem_of_getElem? found)).mpr needed, zero⟩

section

variable {source : Source} {visiting : List Key} {items : List Expr} {s : Spot} {memo : Memo}

theorem matchSequence_of_blocked (total : Nat)
    (blocked : Blocked (isOptional · = false) items (lengthsAlong source visiting items s memo)) :
    (matchSequence source visiting total items s memo).1 = 0 := by
  induction items generalizing total s memo with
  | nil => exact absurd blocked (not_blocked_nil _ _)
  | cons x items ih =>
    rw [matchSequence]
    dsimp only
    split
    · rfl
    · rename_i passed
      refine ih _ ((blocked_cons.mp blocked).resolve_left ?_)
      simpa [and_comm] using passed

theorem matchSequence_of_not_blocked (total : Nat)
    (free : ¬ Blocked (isOptional · = false) items (lengthsAlong source visiting items s memo)) :
    (matchSequence source visiting total items s memo).1 =
      total + (lengthsAlong source visiting items s memo).foldr (· + ·) 0 := by
  induction items generalizing total s memo with
  | nil =>
    rw [matchSequence]
    rfl
  | cons x items ih =>
    rw [lengthsAlong, blocked_cons, not_or] at free
    have passed : ¬ ((matchExpr source visiting x s memo).1 = 0 ∧ (!isOptional x) = true) := by
      simpa [and_comm] using free.1
    rw [matchSequence]
    dsimp only
    rw [if_neg passed, ih _ free.2, lengthsAlong, List.foldr_cons, Nat.add_assoc]

end

/-- An expression that the matcher lets match nothing stands for the empty text, and the converse holds
of the plain expressions and of no others. So a sequence gives up exactly where an item that is neither
an option nor a repetition matches nothing, and otherwise its length is the sum of the lengths of its
items; where all items are plain, it gives up exactly where an item that does not stand for the empty
text matches nothing. -/
theorem optional_parts_iff (source : Source) :
    (∀ e, isOptional e = true → Derives source e []) ∧
      (∀ e, (isOptional e = true ↔ Derives source e []) ↔ Plain source e) ∧
      ∀ (visiting : List Key) (items : List Expr) (s : Spot) (memo : Memo),
        let lengths := lengthsAlong source visiting items s memo
        let result := (matchExpr source visiting (.sequence items) s memo).1
        (Blocked (isOptional · = false) items lengths → result = 0) ∧
          (¬ Blocked (isOptional · = false) items lengths → result = lengths.foldr (· + ·) 0) ∧
          ((∀ x ∈ items, Plain source x) →
            (Blocked (isOptional · = false) items lengths ↔
              Blocked (¬ Derives source · []) items lengths)) := by
  refine ⟨fun e => .nil_of_isOptional source, fun e => plain_iff.symm, ?_⟩
  intro visiting items s memo lengths result
  have result_eq : result = (matchSequence source visiting 0 items s memo).1 := by
    rw [show result = (matchExpr source visiting (.sequence items) s memo).1 from rfl, matchExpr]
  refine ⟨fun blocked => ?_, fun free => ?_, fun plain => ?_⟩
  · rw [result_eq, matchSequence_of_blocked 0 blocked]
  · rw [result_eq, matchSequence_of_not_blocked 0 free, Nat.zero_add]
  · refine Blocked.congr fun x member => ?_
    rw [← plain_iff.mp (plain x member), Bool.not_eq_true]

/-- Parentheses around an option stop a sequence: without them the text is a word, with them it still
derives from the production and is no token. -/
theorem grouped_option_blocks :
    let opening : Expr := .option (.literal (.unplaced "a"))
    let word (first : Expr) : Expr := .sequence [first, .literal (.unplaced "b")]
    let source (first : Expr) : Source := [⟨.unplaced "word", some (word first)⟩]
    let symbols (first : Expr) : List Symbol :=
      let rule : LexRule := ⟨"word", 1, some (.name (.unplaced "word")), false, false⟩
      ((make (source first) [rule] "").tokenize "b").1.map (·.symbol)
    (source (.group opening)).RankedBy (fun _ => 0) ∧
      isOptional (.group opening) = false ∧ Derives (source (.group opening)) (.group opening) [] ∧
      Derives (source (.group opening)) (word (.group opening)) "b" ∧
      (matchExpr (source (.group opening)) [] (word (.group opening)) ⟨0, "b"⟩ []).1 = 0 ∧
      symbols (.group opening) = [Symbol.invalid, Symbol.endOfInput] ∧
      symbols opening = [1, Symbol.endOfInput] := by
  intro opening word source symbols
  have empty : Derives (source (.group opening)) (.group opening) [] := .group (.absent _)
  refine ⟨Source.rankedBy_of_forall (by decide +kernel), rfl, empty, ?_, ?_, ?_, ?_⟩
  · exact .next empty (.next (.literal (.unplaced "b")) .done)
  · decide +kernel
  · decide +kernel
  · decide +kernel

end Lexer

end GrammarCompletion
