import GrammarCompletion.Proofs.Lexer.Cursor
import GrammarCompletion.Proofs.Lexer.Matching

/-!
# Derivable texts

What an expression can stand for is said by derivations, one rule for each form. The matcher reports
failure and an empty match alike as zero, cuts recursion off, and shares what it remembers between
rules; whatever it reports beyond zero is still the length of a derivable text. Hence every token that
comes from a rule is derivable from the expression of that rule.
-/

namespace GrammarCompletion

namespace Ebnf

/-- The texts an expression stands for; names stand for their productions. -/
inductive Derives (source : Source) : Expr → Bytes → Prop
  | literal (text : Located) : Derives source (.literal text) text.text
  | range {first last : Located} {lo hi b : UInt8} (lower : first.text = [lo])
    (upper : last.text = [hi]) (above : lo ≤ b) (below : b ≤ hi) :
    Derives source (.range first last) [b]
  | name {n : Located} {body : Expr} {w : Bytes} (found : source.body? n.text = some body)
    (derived : Derives source body w) : Derives source (.name n) w
  | blank {n : Located} {p : Production} (found : source.find? n.text = some p)
    (empty : p.body = none) : Derives source (.name n) []
  | done : Derives source (.sequence []) []
  | next {x : Expr} {items : List Expr} {v w : Bytes} (first : Derives source x v)
    (others : Derives source (.sequence items) w) : Derives source (.sequence (x :: items)) (v ++ w)
  | choice {x : Expr} {items : List Expr} {w : Bytes} (member : x ∈ items)
    (derived : Derives source x w) : Derives source (.alternative items) w
  | group {body : Expr} {w : Bytes} (derived : Derives source body w) : Derives source (.group body) w
  | absent (body : Expr) : Derives source (.option body) []
  | present {body : Expr} {w : Bytes} (derived : Derives source body w) :
    Derives source (.option body) w
  | never (body : Expr) : Derives source (.repetition body) []
  | again {body : Expr} {v w : Bytes} (first : Derives source body v)
    (others : Derives source (.repetition body) w) : Derives source (.repetition body) (v ++ w)

/-- An expression that may match nothing inside a sequence stands for the empty text. -/
theorem Derives.nil_of_isOptional (source : Source) {e : Expr} (optional : Lexer.isOptional e = true) :
    Derives source e [] := by
  cases e with
  | option body => exact .absent body
  | repetition body => exact .never body
  | _ => simp [Lexer.isOptional] at optional

end Ebnf

namespace Lexer

open Ebnf

/-- A length found at the front of a text is zero or that of a text in a language. -/
structure Fits (language : Bytes → Prop) (rest : Bytes) (n : Nat) : Prop where
  within : n ≤ rest.length
  derivable : n ≠ 0 → language (rest.take n)

namespace Fits

variable {language : Bytes → Prop} {rest : Bytes}

theorem zero (language : Bytes → Prop) (rest : Bytes) : Fits language rest 0 :=
  ⟨Nat.zero_le _, fun nonzero => absurd rfl nonzero⟩

theorem mono {language' : Bytes → Prop} {n : Nat} (fits : Fits language rest n)
    (weaker : ∀ w, language w → language' w) : Fits language' rest n :=
  ⟨fits.within, fun nonzero => weaker _ (fits.derivable nonzero)⟩

theorem longer {n m : Nat} (first : Fits language rest n) (second : Fits language rest m) :
    Fits language rest (max n m) := by
  by_cases less : n ≤ m
  · rw [Nat.max_eq_right less]
    exact second
  · rw [Nat.max_eq_left (by omega)]
    exact first

end Fits

theorem literalLength_fits (source : Source) (text : Located) (rest : Bytes) :
    Fits (Derives source (.literal text)) rest (literalLength text.text rest) := by
  unfold literalLength
  split
  · next front =>
    have isPrefix : text.text <+: rest := List.isPrefixOf_iff_prefix.mp front
    refine ⟨isPrefix.length_le, fun _ => ?_⟩
    rw [← List.prefix_iff_eq_take.mp isPrefix]
    exact .literal text
  · exact .zero _ _

theorem rangeLength_fits (source : Source) (first last : Located) (rest : Bytes) :
    Fits (Derives source (.range first last)) rest (rangeLength first.text last.text rest) := by
  unfold rangeLength
  split
  · next lo hi b tail lower upper =>
    split
    · next between =>
      exact ⟨by simp, fun _ => .range lower upper between.1 between.2⟩
    · exact .zero _ _
  · exact .zero _ _

/-! ## What is remembered

A text is fixed, and every spot lies in it. What is remembered of a name at an offset was found at the
spot there, whichever names were being visited then. -/

def Spot.At (whole : Bytes) (s : Spot) : Prop := s.rest = whole.drop s.offset

@[simp] theorem Spot.rest_advance (n : Nat) (s : Spot) : (s.advance n).rest = s.rest.drop n := by
  fun_induction Spot.advance n s with
  | case1 s => rfl
  | case2 n offset => rfl
  | case3 n offset b rest ih => exact ih

theorem Spot.At.advance {whole : Bytes} {s : Spot} (n : Nat) (here : s.At whole) :
    (s.advance n).At whole := by
  fun_induction Spot.advance n s with
  | case1 s => exact here
  | case2 n offset => exact here
  | case3 n offset b rest ih =>
    apply ih
    show rest = whole.drop (offset + 1)
    rw [← List.drop_drop, ← show b :: rest = whole.drop offset from here]
    rfl

def NameDerives (source : Source) (name w : Bytes) : Prop :=
  ∃ body, source.body? name = some body ∧ Derives source body w

def Memo.Sound (source : Source) (whole : Bytes) (memo : Memo) : Prop :=
  ∀ key n, memo.find? key = some n → Fits (NameDerives source key.name) (whole.drop key.offset) n

theorem Memo.sound_nil (source : Source) (whole : Bytes) : Memo.Sound source whole [] := by
  intro key n found
  simp [Memo.find?] at found

/-- What is found is what was remembered last, or was found before. -/
theorem Memo.find?_cons {memo : Memo} {key other : Key} {n m : Nat}
    (found : Memo.find? ((key, n) :: memo) other = some m) :
    (other = key ∧ m = n) ∨ memo.find? other = some m := by
  unfold Memo.find? at found
  split at found
  · next same =>
    cases key
    cases other
    cases found
    exact .inl ⟨by simp_all, rfl⟩
  · exact .inr found

theorem Memo.Sound.cons {source : Source} {whole : Bytes} {memo : Memo} {key : Key} {n : Nat}
    (sound : memo.Sound source whole)
    (fits : Fits (NameDerives source key.name) (whole.drop key.offset) n) :
    Memo.Sound source whole ((key, n) :: memo) := by
  intro other m found
  rcases Memo.find?_cons found with ⟨rfl, rfl⟩ | old
  · exact fits
  · exact sound other m old

/-! ## The matcher -/

def Correct (source : Source) (whole : Bytes) (language : Bytes → Prop) (s : Spot) (memo : Memo)
    (result : Nat × Memo) : Prop :=
  s.At whole → memo.Sound source whole →
    Fits language s.rest result.1 ∧ result.2.Sound source whole

/-- A sequence behind a length already matched fails, or adds the length of a derivable text, which
may be empty. -/
def SequenceCorrect (source : Source) (whole : Bytes) (total : Nat) (items : List Expr) (s : Spot)
    (memo : Memo) (result : Nat × Memo) : Prop :=
  s.At whole → memo.Sound source whole →
    (result.1 = 0 ∨ ∃ n ≤ s.rest.length, result.1 = total + n ∧
      Derives source (.sequence items) (s.rest.take n)) ∧
    result.2.Sound source whole

variable {source : Source} {whole : Bytes} {s : Spot} {memo : Memo}

theorem Correct.mono {language language' : Bytes → Prop} {result : Nat × Memo}
    (correct : Correct source whole language s memo result)
    (weaker : ∀ w, language w → language' w) : Correct source whole language' s memo result := by
  intro here sound
  have answer := correct here sound
  exact ⟨answer.1.mono weaker, answer.2⟩

theorem SequenceCorrect.correct {items : List Expr} {result : Nat × Memo}
    (correct : SequenceCorrect source whole 0 items s memo result) :
    Correct source whole (Derives source (.sequence items)) s memo result := by
  intro here sound
  obtain ⟨failed | ⟨n, within, total, derived⟩, sound'⟩ := correct here sound
  · exact ⟨failed ▸ .zero _ _, sound'⟩
  · rw [Nat.zero_add] at total
    exact ⟨total ▸ ⟨within, fun _ => derived⟩, sound'⟩

theorem SequenceCorrect.cons {total : Nat} {x : Expr} {items : List Expr} {n : Nat} {memo' : Memo}
    {result : Nat × Memo} (first : Correct source whole (Derives source x) s memo (n, memo'))
    (passed : ¬(n = 0 ∧ (!isOptional x) = true))
    (others : SequenceCorrect source whole (total + n) items (s.advance n) memo' result) :
    SequenceCorrect source whole total (x :: items) s memo result := by
  intro here sound
  obtain ⟨fits, sound'⟩ := first here sound
  have within : n ≤ s.rest.length := fits.within
  have derived : Derives source x (s.rest.take n) := by
    by_cases empty : n = 0
    · have optional : isOptional x = true := by simpa [empty] using passed
      rw [empty, List.take_zero]
      exact .nil_of_isOptional source optional
    · exact fits.derivable empty
  obtain ⟨failed | ⟨m, bound, sum, rest⟩, sound''⟩ := others (here.advance n) sound'
  · exact ⟨.inl failed, sound''⟩
  · rw [Spot.rest_advance] at bound rest
    rw [List.length_drop] at bound
    refine ⟨.inr ⟨n + m, by omega, by omega, ?_⟩, sound''⟩
    rw [List.take_add]
    exact .next derived rest

theorem Correct.again {body : Expr} {n total : Nat} {memo' memo'' : Memo}
    (first : Correct source whole (Derives source body) s memo (n, memo')) (nonzero : n ≠ 0)
    (others : Correct source whole (Derives source (.repetition body)) (s.advance n) memo'
      (total, memo'')) :
    Correct source whole (Derives source (.repetition body)) s memo (n + total, memo'') := by
  intro here sound
  obtain ⟨fits, sound'⟩ := first here sound
  obtain ⟨rest, sound''⟩ := others (here.advance n) sound'
  have within : n ≤ s.rest.length := fits.within
  have bound : total ≤ s.rest.length - n := by simpa using rest.within
  refine ⟨⟨by omega, fun _ => ?_⟩, sound''⟩
  rw [List.take_add]
  apply Derives.again (fits.derivable nonzero)
  by_cases empty : total = 0
  · rw [empty, List.take_zero]
    exact .never body
  · simpa using rest.derivable empty

theorem Correct.once {body : Expr} {result : Nat × Memo}
    (first : Correct source whole (Derives source body) s memo result) :
    Correct source whole (Derives source (.repetition body)) s memo result :=
  first.mono fun w derived => by
    have rest := Derives.again derived (.never body)
    rwa [List.append_nil] at rest

theorem Correct.longest {x : Expr} {items : List Expr} {n best : Nat} {memo' memo'' : Memo}
    (first : Correct source whole (Derives source x) s memo (n, memo'))
    (others : Correct source whole (Derives source (.alternative items)) s memo' (best, memo'')) :
    Correct source whole (Derives source (.alternative (x :: items))) s memo
      (max n best, memo'') := by
  intro here sound
  obtain ⟨fits, sound'⟩ := first here sound
  obtain ⟨rest, sound''⟩ := others here sound'
  have head : Fits (Derives source (.alternative (x :: items))) s.rest n :=
    fits.mono fun w derived => .choice List.mem_cons_self derived
  have tail : Fits (Derives source (.alternative (x :: items))) s.rest best :=
    rest.mono fun w derived => by
      cases derived with
      | choice member derived => exact .choice (List.mem_cons_of_mem _ member) derived
  exact ⟨head.longer tail, sound''⟩

theorem Correct.remember {name : Bytes} {n : Nat} {memo' : Memo}
    (correct : Correct source whole (NameDerives source name) s memo (n, memo')) :
    Correct source whole (NameDerives source name) s memo (n, (⟨name, s.offset⟩, n) :: memo') := by
  intro here sound
  obtain ⟨fits, sound'⟩ := correct here sound
  refine ⟨fits, sound'.cons ?_⟩
  rw [show s.rest = whole.drop s.offset from here] at fits
  exact fits

theorem Correct.zero (language : Bytes → Prop) : Correct source whole language s memo (0, memo) :=
  fun _ sound => ⟨.zero _ _, sound⟩

/-- What a result is worth, by what was asked for. -/
def Part.Correct (source : Source) (whole : Bytes) : Part → Spot → Memo → Nat × Memo → Prop
  | .expr e => Lexer.Correct source whole (Derives source e)
  | .name n => Lexer.Correct source whole (NameDerives source n)
  | .sequence total items => SequenceCorrect source whole total items
  | .longest items => Lexer.Correct source whole (Derives source (.alternative items))
  | .repetition body => Lexer.Correct source whole (Derives source (.repetition body))

theorem Matches.correct {visiting : List Key} {part : Part} {result : Nat × Memo}
    (h : Matches source visiting part s memo result) : part.Correct source whole s memo result := by
  induction h with
  | literal visiting text s memo => exact fun _ sound => ⟨literalLength_fits source text s.rest, sound⟩
  | range visiting first last s memo =>
    exact fun _ sound => ⟨rangeLength_fits source first last s.rest, sound⟩
  | name _ ih => exact ih.mono fun w ⟨body, found, derived⟩ => .name found derived
  | sequence _ ih => exact ih.correct
  | alternative _ ih | repetition _ ih => exact ih
  | group _ ih => exact ih.mono fun w derived => .group derived
  | option _ ih => exact ih.mono fun w derived => .present derived
  | @known visiting name s memo n found =>
    intro here sound
    have fits := sound ⟨name, s.offset⟩ n found
    rw [← show s.rest = whole.drop s.offset from here] at fits
    exact ⟨fits, sound⟩
  | cycle => exact Correct.zero _
  | missing => exact (Correct.zero _).remember
  | production _ _ defined _ ih => exact (ih.mono fun w derived => ⟨_, defined, derived⟩).remember
  | done visiting total s memo => exact fun _ sound => ⟨.inr ⟨0, Nat.zero_le _, rfl, .done⟩, sound⟩
  | failed first fail ih => exact fun here sound => ⟨.inl rfl, (ih here sound).2⟩
  | next first passed others ih ih' => exact SequenceCorrect.cons ih passed ih'
  | noChoice => exact Correct.zero _
  | choice first others ih ih' => exact ih.longest ih'
  | again first more others ih ih' => exact ih.again more.1 ih'
  | once first stop ih => exact ih.once

theorem matchExpr_correct (source : Source) (whole : Bytes) (visiting : List Key) (e : Expr) (s : Spot)
    (memo : Memo) :
    Correct source whole (Derives source e) s memo (matchExpr source visiting e s memo) :=
  (matchExpr_matches source visiting e s memo).correct

/-! ## The rules of a lexer -/

/-- One of some rules, with a length that fits its expression at the front of a text. -/
def Chosen (source : Source) (rules : List LexRule) (rest : Bytes) (choice : LexRule × Nat) : Prop :=
  choice.1 ∈ rules ∧ ∃ body, choice.1.body = some body ∧ Fits (Derives source body) rest choice.2

/-- What is remembered passes from each rule to the next, so it is part of the invariant. -/
theorem bestOf_chosen {all rules : List LexRule} {rest : Bytes} {best : Option (LexRule × Nat)}
    (members : ∀ rule ∈ rules, rule ∈ all) (sound : memo.Sound source rest)
    (before : ∀ choice ∈ best, Chosen source all rest choice) :
    ∀ choice ∈ bestOf source ⟨0, rest⟩ rules memo best, Chosen source all rest choice := by
  fun_induction bestOf source ⟨0, rest⟩ rules memo best with
  | case1 => exact before
  | case2 rule rules memo best _ ih =>
    exact ih (fun r member => members r (List.mem_cons_of_mem _ member)) sound before
  | case3 rule rules memo best body defined n memo' matched longer ih =>
    have correct := matchExpr_correct source rest [] body ⟨0, rest⟩ memo rfl sound
    rw [matched] at correct
    apply ih (fun r member => members r (List.mem_cons_of_mem _ member)) correct.2
    intro choice chosen
    cases chosen
    exact ⟨members rule List.mem_cons_self, body, defined, correct.1⟩
  | case4 rule rules memo best body defined n memo' matched shorter ih =>
    have correct := matchExpr_correct source rest [] body ⟨0, rest⟩ memo rfl sound
    rw [matched] at correct
    exact ih (fun r member => members r (List.mem_cons_of_mem _ member)) correct.2 before

theorem best?_chosen {l : Lexer} {rest : Bytes} {rule : LexRule} {n : Nat}
    (best : l.best? rest = some (rule, n)) : Chosen l.source l.rules rest (rule, n) :=
  bestOf_chosen (fun _ member => member) (Memo.sound_nil _ _) (by simp) (rule, n) best

theorem best?_pos {l : Lexer} {rest : Bytes} {rule : LexRule} {n : Nat}
    (best : l.best? rest = some (rule, n)) : 0 < n :=
  bestOf_pos (by simp) (rule, n) best

theorem mem_rules_make {rules : List LexRule} {file : Bytes} {rule : LexRule} :
    rule ∈ (make source rules file).rules ↔ rule ∈ rules := by
  cases literal : rule.isLiteral <;> simp [make, literal]

/-- At the front of a text and after any number of calls, the next token ends the input, or no rule
matches, or the token covers some bytes that are derivable from the expression of its rule. -/
theorem next_derives (source : Source) (rules : List LexRule) (file text : Bytes) (calls : Nat) :
    let l := make source rules file
    let c := l.after calls (Cursor.start text)
    let t := (l.next c).1
    (c.rest = [] ∧ t.symbol = Symbol.endOfInput) ∨
    (c.rest ≠ [] ∧ l.best? c.rest = none ∧ t.symbol = Symbol.invalid) ∨
    ∃ rule ∈ rules, ∃ body n, l.best? c.rest = some (rule, n) ∧ rule.body = some body ∧
      t.symbol = rule.symbol ∧ t.start = c.offset ∧ t.stop = c.offset + n ∧
      t.stop ≤ text.length ∧ t.text = t.slice text ∧ t.slice text ≠ [] ∧
      Derives source body (t.slice text) := by
  intro l c t
  have here : c.At text := l.at_after calls (Cursor.At.start text)
  obtain ⟨n, symbol, covered, channel, reads, next⟩ := l.next_reads c
  have token : t = tokenBetween c (c.advance n) symbol covered channel := congrArg Prod.fst next
  rw [token]
  cases reads with
  | finish empty => exact .inl ⟨empty, rfl⟩
  | stray front unmatched => exact .inr (.inl ⟨by simp [front], unmatched, rfl⟩)
  | @matched rule n more best =>
    obtain ⟨member, body, defined, fits⟩ := best?_chosen best
    have positive : 0 < n := best?_pos best
    have within : n ≤ c.rest.length := fits.within
    have stop : (c.advance n).offset = c.offset + n := by
      rw [Cursor.offset_advance, Nat.min_eq_left within]
    have inside : c.offset + n ≤ text.length := by
      have := here.length_rest
      have := here.within
      omega
    refine .inr (.inr ⟨rule, mem_rules_make.mp member, body, n, best, defined, rfl, rfl, ?_, ?_, ?_⟩)
    · simp [tokenBetween, stop]
    · simp only [tokenBetween, stop]
      omega
    · rw [slice_tokenBetween here within]
      refine ⟨rfl, ?_, fits.derivable (by omega)⟩
      rw [← List.length_pos_iff, List.length_take]
      omega

end Lexer

end GrammarCompletion
