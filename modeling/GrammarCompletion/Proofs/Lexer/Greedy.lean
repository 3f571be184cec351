import GrammarCompletion.Proofs.Lexer.Derivation

/-!
# Longest match by plain recursion

The greedy length of an expression is what plain recursion gives: nothing is remembered, and a name is
looked up whenever it is met. The recursion ends at every spot if the names that a production may look up
before a byte have lower ranks than its own name. There the matcher finds the same lengths. The names it
is visiting at a spot all have higher ranks than those it comes to, so that it never cuts a name off; and
all that it remembers are greedy lengths, whichever names were being visited when they were found. So the
next token is the longest of all greedy matches, and of the first rule among equally long ones.
-/

namespace GrammarCompletion

namespace Ebnf

mutual

/-- The names that an expression may look up before a byte is passed: in a sequence, those up to and
including the first item that must match something. -/
def Expr.leading : Expr → List Bytes
  | .literal _ | .range _ _ => []
  | .name n => [n.text]
  | .sequence items => leadingInSequence items
  | .alternative items => leadingInAny items
  | .group body | .option body | .repetition body => body.leading

def leadingInSequence : List Expr → List Bytes
  | [] => []
  | x :: items => x.leading ++ if Lexer.isOptional x then leadingInSequence items else []

def leadingInAny : List Expr → List Bytes
  | [] => []
  | x :: items => x.leading ++ leadingInAny items

end

/-- There is no left recursion: what a production may look up before a byte has a lower rank. -/
def Source.RankedBy (source : Source) (rank : Bytes → Nat) : Prop :=
  ∀ name body, source.body? name = some body → ∀ m ∈ body.leading, rank m < rank name

/-- It is enough to look at all productions, whether or not a name finds them. -/
theorem Source.rankedBy_of_forall {source : Source} {rank : Bytes → Nat}
    (h : ∀ p ∈ source, ∀ body ∈ p.body, ∀ m ∈ body.leading, rank m < rank p.name.text) :
    source.RankedBy rank := by
  intro name body defined
  obtain ⟨p, found, bodied⟩ := Option.bind_eq_some_iff.mp defined
  have named : p.name.text = name := by simpa using List.find?_some found
  rw [← named]
  exact h p (List.mem_of_find?_eq_some found) body bodied

end Ebnf

namespace Lexer

open Ebnf

/-! ## Greedy lengths -/

def Part.leading : Part → List Bytes
  | .expr e => e.leading
  | .name n => [n]
  | .sequence _ items => leadingInSequence items
  | .longest items => leadingInAny items
  | .repetition body => body.leading

/-- The length that plain recursion gives, one rule for each of its branches. There is none if the
recursion does not end. One name may be barred until a byte has been passed; `bar` says which one is
inside the production of a name. -/
inductive Recursion (source : Source) (bar : Bytes → Option Bytes) :
    Option Bytes → Part → Bytes → Nat → Prop
  | literal {barred : Option Bytes} (text : Located) (rest : Bytes) :
    Recursion source bar barred (.expr (.literal text)) rest (literalLength text.text rest)
  | range {barred : Option Bytes} (first last : Located) (rest : Bytes) :
    Recursion source bar barred (.expr (.range first last)) rest (rangeLength first.text last.text rest)
  | name {barred : Option Bytes} {n : Located} {rest : Bytes} {length : Nat}
    (h : Recursion source bar barred (.name n.text) rest length) :
    Recursion source bar barred (.expr (.name n)) rest length
  | sequence {barred : Option Bytes} {items : List Expr} {rest : Bytes} {length : Nat}
    (h : Recursion source bar barred (.sequence 0 items) rest length) :
    Recursion source bar barred (.expr (.sequence items)) rest length
  | alternative {barred : Option Bytes} {items : List Expr} {rest : Bytes} {length : Nat}
    (h : Recursion source bar barred (.longest items) rest length) :
    Recursion source bar barred (.expr (.alternative items)) rest length
  | group {barred : Option Bytes} {body : Expr} {rest : Bytes} {length : Nat}
    (h : Recursion source bar barred (.expr body) rest length) :
    Recursion source bar barred (.expr (.group body)) rest length
  | option {barred : Option Bytes} {body : Expr} {rest : Bytes} {length : Nat}
    (h : Recursion source bar barred (.expr body) rest length) :
    Recursion source bar barred (.expr (.option body)) rest length
  | repetition {barred : Option Bytes} {body : Expr} {rest : Bytes} {length : Nat}
    (h : Recursion source bar barred (.repetition body) rest length) :
    Recursion source bar barred (.expr (.repetition body)) rest length
  /-- A barred name does not match. -/
  | barred (n rest : Bytes) : Recursion source bar (some n) (.name n) rest 0
  /-- Nor does a name without an expression. -/
  | missing {barred : Option Bytes} {n : Bytes} (other : barred ≠ some n)
    (undefined : source.body? n = none) (rest : Bytes) : Recursion source bar barred (.name n) rest 0
  | production {barred : Option Bytes} {n rest : Bytes} {body : Expr} {length : Nat}
    (other : barred ≠ some n) (defined : source.body? n = some body)
    (h : Recursion source bar (bar n) (.expr body) rest length) :
    Recursion source bar barred (.name n) rest length
  | done {barred : Option Bytes} (total : Nat) (rest : Bytes) :
    Recursion source bar barred (.sequence total []) rest total
  /-- An item that must match something does not. -/
  | failed {barred : Option Bytes} {total n : Nat} {x : Expr} {items : List Expr} {rest : Bytes}
    (first : Recursion source bar barred (.expr x) rest n) (fail : n = 0 ∧ (!isOptional x) = true) :
    Recursion source bar barred (.sequence total (x :: items)) rest 0
  | next {barred : Option Bytes} {total n length : Nat} {x : Expr} {items : List Expr} {rest : Bytes}
    (first : Recursion source bar barred (.expr x) rest n) (passed : ¬(n = 0 ∧ (!isOptional x) = true))
    (others : Recursion source bar (if n = 0 then barred else none) (.sequence (total + n) items)
      (rest.drop n) length) :
    Recursion source bar barred (.sequence total (x :: items)) rest length
  | noChoice {barred : Option Bytes} (rest : Bytes) : Recursion source bar barred (.longest []) rest 0
  | choice {barred : Option Bytes} {n best : Nat} {x : Expr} {items : List Expr} {rest : Bytes}
    (first : Recursion source bar barred (.expr x) rest n)
    (others : Recursion source bar barred (.longest items) rest best) :
    Recursion source bar barred (.longest (x :: items)) rest (max n best)
  | stop {barred : Option Bytes} {body : Expr} {rest : Bytes}
    (h : Recursion source bar barred (.expr body) rest 0) :
    Recursion source bar barred (.repetition body) rest 0
  | again {barred : Option Bytes} {n total : Nat} {body : Expr} {rest : Bytes}
    (first : Recursion source bar barred (.expr body) rest n) (nonzero : n ≠ 0)
    (others : Recursion source bar none (.repetition body) (rest.drop n) total) :
    Recursion source bar barred (.repetition body) rest (n + total)

/-- The length where no name is barred. -/
abbrev Greedy (source : Source) : Part → Bytes → Nat → Prop := Recursion source (fun _ => none) none

/-- The greedy length of a rule; a rule without an expression matches nothing. -/
def GreedyRule (source : Source) (rule : LexRule) (rest : Bytes) (n : Nat) : Prop :=
  match rule.body with
  | none => n = 0
  | some body => Greedy source (.expr body) rest n

namespace Recursion

variable {source : Source} {bar : Bytes → Option Bytes} {barred : Option Bytes} {part : Part}
  {rest : Bytes} {n m : Nat}

/-- Plain recursion gives at most one length. -/
theorem unique (h : Recursion source bar barred part rest n)
    (h' : Recursion source bar barred part rest m) : n = m := by
  induction h generalizing m with
  | literal | range | done | noChoice => cases h'; rfl
  | name _ ih | sequence _ ih | alternative _ ih | group _ ih | option _ ih | repetition _ ih =>
    cases h' with
    | _ h' => exact ih h'
  | barred n rest =>
    cases h' with
    | barred => rfl
    | missing other | production other => exact absurd rfl other
  | missing other undefined rest =>
    cases h' with
    | barred => exact absurd rfl other
    | missing => rfl
    | production _ defined _ =>
      rw [defined] at undefined
      cases undefined
  | production other defined _ ih =>
    cases h' with
    | barred => exact absurd rfl other
    | missing _ undefined =>
      rw [defined] at undefined
      cases undefined
    | production _ defined' h' =>
      cases defined.symm.trans defined'
      exact ih h'
  | failed first fail ih =>
    cases h' with
    | failed => rfl
    | next first' passed _ => exact absurd (ih first' ▸ fail) passed
  | next first passed others ih ih' =>
    cases h' with
    | failed first' fail => exact absurd (ih first' ▸ fail) passed
    | next first' _ others' =>
      cases ih first'
      exact ih' others'
  | choice first others ih ih' =>
    cases h' with
    | choice first' others' => rw [ih first', ih' others']
  | stop _ ih =>
    cases h' with
    | stop => rfl
    | again first' nonzero _ => exact absurd (ih first').symm nonzero
  | again first nonzero others ih ih' =>
    cases h' with
    | stop first' => exact absurd (ih first') nonzero
    | again first' _ others' =>
      cases ih first'
      rw [ih' others']

theorem le_length (h : Recursion source bar barred part rest n) : n ≤ part.before + rest.length := by
  induction h with
  | literal text rest => exact Nat.le_add_left_of_le (literalLength_fits source text rest).within
  | range first last rest => exact Nat.le_add_left_of_le (rangeLength_fits source first last rest).within
  | name _ ih | sequence _ ih | alternative _ ih | group _ ih | option _ ih | repetition _ ih
  | production _ _ _ ih => exact ih
  | barred | missing | failed | noChoice | stop => exact Nat.zero_le _
  | done total rest => exact Nat.le_add_right _ _
  | next first passed others ih ih' =>
    simp only [Part.before, List.length_drop] at ih ih' ⊢
    omega
  | choice first others ih ih' =>
    simp only [Part.before] at ih ih' ⊢
    omega
  | again first nonzero others ih ih' =>
    simp only [Part.before, List.length_drop] at ih ih' ⊢
    omega

end Recursion

/-! ## Names that are being visited -/

theorem Spot.offset_advance (n : Nat) (s : Spot) :
    (s.advance n).offset = s.offset + min n s.rest.length := by
  fun_induction Spot.advance n s with
  | case1 s => simp
  | case2 n offset => simp
  | case3 n offset b rest ih =>
    simp only [ih, List.length_cons]
    omega

/-- The names being visited at a spot have higher ranks than some names to look up there, and none is
being visited further on. -/
def Clear (rank : Bytes → Nat) (visiting : List Key) (s : Spot) (names : List Bytes) : Prop :=
  ∀ key ∈ visiting, key.offset ≤ s.offset ∧
    (key.offset = s.offset → ∀ m ∈ names, rank m < rank key.name)

namespace Clear

variable {source : Source} {rank : Bytes → Nat} {visiting : List Key} {s : Spot} {names : List Bytes}

theorem nil (rank : Bytes → Nat) (s : Spot) (names : List Bytes) : Clear rank [] s names := by
  intro key member
  cases member

theorem subset {names' : List Bytes} (h : Clear rank visiting s names) (fewer : names' ⊆ names) :
    Clear rank visiting s names' := fun key member =>
  ⟨(h key member).1, fun here m member' => (h key member).2 here m (fewer member')⟩

theorem advance (h : Clear rank visiting s names) {n : Nat} (nonzero : n ≠ 0)
    (within : n ≤ s.rest.length) (names' : List Bytes) :
    Clear rank visiting (s.advance n) names' := by
  intro key member
  have before := (h key member).1
  rw [Spot.offset_advance, Nat.min_eq_left within]
  exact ⟨by omega, fun here => by omega⟩

theorem contains_eq_false {name : Bytes} (h : Clear rank visiting s [name]) :
    visiting.contains ⟨name, s.offset⟩ = false := by
  rw [Bool.eq_false_iff, ne_eq, List.contains_iff_mem]
  intro member
  exact absurd ((h _ member).2 rfl name List.mem_cons_self) (Nat.lt_irrefl _)

/-- The body of a production comes below all that is being visited, its own name included. -/
theorem visit (ranked : source.RankedBy rank) {name : Bytes} {body : Expr}
    (defined : source.body? name = some body) (h : Clear rank visiting s [name]) :
    Clear rank (⟨name, s.offset⟩ :: visiting) s body.leading := by
  intro key member
  rcases List.mem_cons.mp member with rfl | old
  · exact ⟨Nat.le_refl _, fun _ => ranked name body defined⟩
  · refine ⟨(h key old).1, fun here m leads => ?_⟩
    have lower := ranked name body defined m leads
    have higher := (h key old).2 here name List.mem_cons_self
    exact Nat.lt_trans lower higher

end Clear

/-! ## The matcher -/

def Memo.Greedy (source : Source) (whole : Bytes) (memo : Memo) : Prop :=
  ∀ key n, memo.find? key = some n → Lexer.Greedy source (.name key.name) (whole.drop key.offset) n

theorem Memo.greedy_nil (source : Source) (whole : Bytes) : Memo.Greedy source whole [] := by
  intro key n found
  simp [Memo.find?] at found

theorem Memo.Greedy.cons {source : Source} {whole : Bytes} {memo : Memo} {name : Bytes} {s : Spot}
    {n : Nat} (remembered : memo.Greedy source whole) (here : s.At whole)
    (greedy : Lexer.Greedy source (.name name) s.rest n) :
    Memo.Greedy source whole ((⟨name, s.offset⟩, n) :: memo) := by
  intro key m found
  rcases Memo.find?_cons found with ⟨rfl, rfl⟩ | old
  · rwa [show s.rest = whole.drop s.offset from here] at greedy
  · exact remembered key m old

/-- A result is the greedy length, and all that is remembered afterwards is greedy, if that was so before
and none of the names to look up is being visited. -/
theorem Matches.greedy {source : Source} {rank : Bytes → Nat} (ranked : source.RankedBy rank)
    {whole : Bytes} {visiting : List Key} {part : Part} {s : Spot} {memo : Memo} {result : Nat × Memo}
    (h : Matches source visiting part s memo result) (here : s.At whole)
    (remembered : memo.Greedy source whole) (clear : Clear rank visiting s part.leading) :
    Greedy source part s.rest result.1 ∧ result.2.Greedy source whole := by
  induction h with
  | literal visiting text s memo => exact ⟨.literal text s.rest, remembered⟩
  | range visiting first last s memo => exact ⟨.range first last s.rest, remembered⟩
  | name _ ih => exact (ih here remembered clear).imp_left .name
  | sequence _ ih => exact (ih here remembered clear).imp_left .sequence
  | alternative _ ih => exact (ih here remembered clear).imp_left .alternative
  | group _ ih => exact (ih here remembered clear).imp_left .group
  | option _ ih => exact (ih here remembered clear).imp_left .option
  | repetition _ ih => exact (ih here remembered clear).imp_left .repetition
  | @known visiting name s memo n found =>
    have entry := remembered ⟨name, s.offset⟩ n found
    rw [← show s.rest = whole.drop s.offset from here] at entry
    exact ⟨entry, remembered⟩
  | cycle unknown active =>
    -- a name that is being visited here would have a lower rank than itself
    rw [clear.contains_eq_false] at active
    cases active
  | @missing visiting name s memo unknown isNew undefined =>
    have greedy : Greedy source (.name name) s.rest 0 :=
      .missing (Option.some_ne_none name).symm undefined s.rest
    exact ⟨greedy, remembered.cons here greedy⟩
  | production unknown isNew defined _ ih =>
    obtain ⟨inner, remembered'⟩ := ih here remembered (clear.visit ranked defined)
    have greedy := Recursion.production (Option.some_ne_none _).symm defined inner
    exact ⟨greedy, remembered'.cons here greedy⟩
  | done visiting total s memo => exact ⟨.done total s.rest, remembered⟩
  | failed first fail ih =>
    exact (ih here remembered (clear.subset (List.subset_append_left _ _))).imp_left (.failed · fail)
  | @next visiting total n x items s memo memo' result first passed others ih ih' =>
    obtain ⟨greedy, remembered'⟩ := ih here remembered (clear.subset (List.subset_append_left _ _))
    have clear' : Clear rank visiting (s.advance n) (leadingInSequence items) := by
      by_cases zero : n = 0
      · -- nothing was passed, so the item was optional and the others lead too
        have optional : isOptional x = true := by simpa [zero] using passed
        subst zero
        refine clear.subset ?_
        simp [Part.leading, leadingInSequence, optional]
      · exact clear.advance zero (by simpa [Part.before] using greedy.le_length) _
    obtain ⟨greedy', remembered''⟩ := ih' (here.advance n) remembered' clear'
    rw [Spot.rest_advance] at greedy'
    exact ⟨.next greedy passed (by rwa [ite_self]), remembered''⟩
  | noChoice visiting s memo => exact ⟨.noChoice s.rest, remembered⟩
  | choice first others ih ih' =>
    obtain ⟨greedy, remembered'⟩ := ih here remembered (clear.subset (List.subset_append_left _ _))
    obtain ⟨greedy', remembered''⟩ :=
      ih' here remembered' (clear.subset (List.subset_append_right _ _))
    exact ⟨.choice greedy greedy', remembered''⟩
  | @again visiting body n total s memo memo' memo'' first more others ih ih' =>
    obtain ⟨greedy, remembered'⟩ := ih here remembered clear
    have within : n ≤ s.rest.length := by simpa [Part.before] using greedy.le_length
    obtain ⟨greedy', remembered''⟩ :=
      ih' (here.advance n) remembered' (clear.advance more.1 within _)
    rw [Spot.rest_advance] at greedy'
    exact ⟨.again greedy more.1 greedy', remembered''⟩
  | @once visiting body n s memo memo' first stop ih =>
    obtain ⟨greedy, remembered'⟩ := ih here remembered clear
    -- at the end of the text nothing is left to match
    have zero : n = 0 := by
      have within : n ≤ s.rest.length := by simpa [Part.before] using greedy.le_length
      rw [← List.length_pos_iff] at stop
      omega
    subst zero
    exact ⟨.stop greedy, remembered'⟩

/-! ## Rules -/

section Rules

variable {source : Source} {rank : Bytes → Nat} {rules : List LexRule} {rest : Bytes} {memo : Memo}
  {best : Option (LexRule × Nat)}

theorem matchExpr_greedy (ranked : source.RankedBy rank) (remembered : memo.Greedy source rest)
    (body : Expr) :
    Greedy source (.expr body) rest (matchExpr source [] body ⟨0, rest⟩ memo).1 ∧
      (matchExpr source [] body ⟨0, rest⟩ memo).2.Greedy source rest :=
  (matchExpr_matches source [] body ⟨0, rest⟩ memo).greedy ranked rfl remembered (.nil rank _ _)

theorem GreedyRule.of_body {rule : LexRule} {body : Expr} {n : Nat} (defined : rule.body = some body)
    (greedy : Greedy source (.expr body) rest n) : GreedyRule source rule rest n := by
  simpa only [GreedyRule, defined] using greedy

theorem GreedyRule.unique {rule : LexRule} {n m : Nat} (h : GreedyRule source rule rest n)
    (h' : GreedyRule source rule rest m) : n = m := by
  cases defined : rule.body with
  | none =>
    simp only [GreedyRule, defined] at h h'
    rw [h, h']
  | some body =>
    simp only [GreedyRule, defined] at h h'
    exact h.unique h'

theorem exists_greedyRule (ranked : source.RankedBy rank) (rule : LexRule) (rest : Bytes) :
    ∃ n, GreedyRule source rule rest n := by
  unfold GreedyRule
  cases rule.body with
  | none => exact ⟨0, rfl⟩
  | some body => exact ⟨_, (matchExpr_greedy ranked (Memo.greedy_nil source rest) body).1⟩

/-- Among some rules behind others, either none has a longer match than those before, or the first with
the longest match is taken. -/
def Picks (len : LexRule → Nat) (rules : List LexRule) (best result : Option (LexRule × Nat)) : Prop :=
  (result = best ∧ ∀ r ∈ rules, len r ≤ (best.map Prod.snd).getD 0) ∨
  ∃ front rule back, rules = front ++ rule :: back ∧ result = some (rule, len rule) ∧
    (best.map Prod.snd).getD 0 < len rule ∧
    (∀ r ∈ front, len r < len rule) ∧ ∀ r ∈ rules, len r ≤ len rule

theorem Picks.skip {len : LexRule → Nat} {rule : LexRule} {result : Option (LexRule × Nat)}
    (h : Picks len rules best result) (shorter : len rule ≤ (best.map Prod.snd).getD 0) :
    Picks len (rule :: rules) best result := by
  rcases h with ⟨same, others⟩ | ⟨front, r, back, split, found, longer, before, others⟩
  · exact .inl ⟨same, List.forall_mem_cons.mpr ⟨shorter, others⟩⟩
  · have less : len rule < len r := Nat.lt_of_le_of_lt shorter longer
    exact .inr ⟨rule :: front, r, back, by rw [split]; rfl, found, longer,
      List.forall_mem_cons.mpr ⟨less, before⟩,
      List.forall_mem_cons.mpr ⟨Nat.le_of_lt less, others⟩⟩

theorem Picks.take {len : LexRule → Nat} {rule : LexRule} {result : Option (LexRule × Nat)}
    (h : Picks len rules (some (rule, len rule)) result)
    (longer : (best.map Prod.snd).getD 0 < len rule) : Picks len (rule :: rules) best result := by
  rcases h with ⟨same, others⟩ | ⟨front, r, back, split, found, less, before, others⟩
  · exact .inr ⟨[], rule, rules, rfl, same, longer, by simp,
      List.forall_mem_cons.mpr ⟨Nat.le_refl _, others⟩⟩
  · have less : len rule < len r := less
    exact .inr ⟨rule :: front, r, back, by rw [split]; rfl, found, Nat.lt_trans longer less,
      List.forall_mem_cons.mpr ⟨less, before⟩,
      List.forall_mem_cons.mpr ⟨Nat.le_of_lt less, others⟩⟩

theorem bestOf_picks (ranked : source.RankedBy rank) {len : LexRule → Nat}
    (lengths : ∀ rule ∈ rules, GreedyRule source rule rest (len rule))
    (remembered : memo.Greedy source rest) :
    Picks len rules best (bestOf source ⟨0, rest⟩ rules memo best) := by
  fun_induction bestOf source ⟨0, rest⟩ rules memo best with
  | case1 => exact .inl ⟨rfl, by simp⟩
  | case2 rule rules memo best bodiless ih =>
    rw [List.forall_mem_cons] at lengths
    have zero : GreedyRule source rule rest 0 := by simp only [GreedyRule, bodiless]
    have same := zero.unique lengths.1
    exact (ih lengths.2 remembered).skip (by omega)
  | case3 rule rules memo best body defined n memo' matched longer ih =>
    rw [List.forall_mem_cons] at lengths
    obtain ⟨greedy, remembered'⟩ := matchExpr_greedy ranked remembered body
    rw [matched] at greedy remembered'
    obtain rfl : n = len rule := (GreedyRule.of_body defined greedy).unique lengths.1
    exact (ih lengths.2 remembered').take longer
  | case4 rule rules memo best body defined n memo' matched shorter ih =>
    rw [List.forall_mem_cons] at lengths
    obtain ⟨greedy, remembered'⟩ := matchExpr_greedy ranked remembered body
    rw [matched] at greedy remembered'
    obtain rfl : n = len rule := (GreedyRule.of_body defined greedy).unique lengths.1
    exact (ih lengths.2 remembered').skip (Nat.not_lt.mp shorter)

/-- Without left recursion, every rule has a greedy length at every place of a text before its end, and
the next token is the longest match: a stray byte if all lengths are zero, and otherwise of the first
rule with the greatest length, where literal rules come before the others. -/
theorem next_longest_match (ranked : source.RankedBy rank) (rules : List LexRule) (file : Bytes)
    {text : Bytes} {c : Cursor} (here : c.At text) (more : c.offset < text.length) :
    let t := ((make source rules file).next c).1
    ∃ len : LexRule → Nat,
      (∀ rule ∈ rules, ∀ n, GreedyRule source rule c.rest n ↔ n = len rule) ∧
      (((∀ rule ∈ rules, len rule = 0) ∧ t.symbol = Symbol.invalid ∧
          t.channel = Token.defaultChannel ∧ t.start = c.offset ∧ t.stop = c.offset + 1) ∨
        ∃ front rule back,
          rules.filter (·.isLiteral) ++ rules.filter (!·.isLiteral) = front ++ rule :: back ∧
          0 < len rule ∧ (∀ r ∈ rules, len r ≤ len rule) ∧ (∀ r ∈ front, len r < len rule) ∧
          t.symbol = rule.symbol ∧
          t.channel = (if rule.isHidden then Token.hiddenChannel else Token.defaultChannel) ∧
          t.start = c.offset ∧ t.stop = c.offset + len rule ∧ t.text = t.slice text) := by
  intro t
  have nonempty : c.rest ≠ [] := by
    rw [ne_eq, here.rest_eq_nil_iff]
    omega
  obtain ⟨len, lengths⟩ := Classical.skolem.mp fun rule => exists_greedyRule ranked rule c.rest
  have picks : Picks len (make source rules file).rules none ((make source rules file).best? c.rest) :=
    bestOf_picks ranked (fun rule _ => lengths rule) (Memo.greedy_nil source c.rest)
  obtain ⟨n, symbol, covered, channel, reads, next⟩ := (make source rules file).next_reads c
  have token : t = tokenBetween c (c.advance n) symbol covered channel := congrArg Prod.fst next
  refine ⟨len, fun rule _ n => ⟨fun h => h.unique (lengths rule), fun same => same ▸ lengths rule⟩, ?_⟩
  rw [token]
  cases reads with
  | finish empty => exact absurd empty nonempty
  | stray front unmatched =>
    rcases picks with ⟨-, zero⟩ | ⟨before, rule, behind, split, found, -⟩
    · have stop : (c.advance 1).offset = c.offset + 1 := by
        rw [Cursor.offset_advance, front]
        simp
      refine .inl ⟨fun rule member => ?_, rfl, rfl, rfl, by simp [tokenBetween, stop]⟩
      exact Nat.le_zero.mp (zero rule (mem_rules_make.mpr member))
    · rw [unmatched] at found
      cases found
  | @matched rule n more best =>
    rcases picks with ⟨unmatched, -⟩ | ⟨before, first, behind, split, found, longer, shorter, others⟩
    · rw [best] at unmatched
      cases unmatched
    · rw [best] at found
      obtain ⟨rfl, rfl⟩ : rule = first ∧ n = len first := by simpa using found
      have within : len rule ≤ c.rest.length := by
        obtain ⟨-, body, -, fits⟩ := best?_chosen best
        exact fits.within
      have stop : (c.advance (len rule)).offset = c.offset + len rule := by
        rw [Cursor.offset_advance, Nat.min_eq_left within]
      exact .inr ⟨before, rule, behind, split, longer,
        fun r member => others r (mem_rules_make.mpr member), shorter, rfl, rfl, rfl,
        by simp [tokenBetween, stop], (slice_tokenBetween here within _ _ _).symm⟩

end Rules

/-- Comments that hold comments, and words of letters. -/
def nested : Source :=
  [⟨.unplaced "comment", some (.sequence [.literal (.unplaced "("),
      .repetition (.alternative [.name (.unplaced "comment"), .name (.unplaced "letter")]),
      .literal (.unplaced ")")])⟩,
    ⟨.unplaced "word",
      some (.sequence [.name (.unplaced "letter"), .repetition (.name (.unplaced "letter"))])⟩,
    ⟨.unplaced "letter", some (.range (.unplaced "a") (.unplaced "z"))⟩]

def nestedRules : List LexRule :=
  [⟨"comment", 1, some (.name (.unplaced "comment")), false, true⟩,
    ⟨"word", 2, some (.name (.unplaced "word")), false, false⟩,
    ⟨"open", 3, some (.literal (.unplaced "(")), true, false⟩]

theorem next_longest_match_nested :
    let rank (name : Bytes) : Nat := if name = ("word" : Bytes) then 1 else 0
    let c := (make nested nestedRules "").after 1 (Cursor.start "x(a(b)c)d")
    let t := ((make nested nestedRules "").next c).1
    nested.RankedBy rank ∧ (t.symbol, t.channel, t.start, t.stop) = (1, Token.hiddenChannel, 1, 8) ∧
      ∃ len : LexRule → Nat,
        (∀ rule ∈ nestedRules, ∀ n, GreedyRule nested rule c.rest n ↔ n = len rule) ∧
        (∃ rule ∈ nestedRules, len rule = 7) ∧ ∀ rule ∈ nestedRules, len rule ≤ 7 := by
  intro rank c t
  have ranked : nested.RankedBy rank := Source.rankedBy_of_forall (by decide +kernel)
  have here : c.At "x(a(b)c)d" := at_after _ 1 (Cursor.At.start "x(a(b)c)d")
  have token : (t.symbol, t.channel, t.start, t.stop) = (1, Token.hiddenChannel, 1, 8) := by
    decide +kernel
  have more : c.offset < ("x(a(b)c)d" : Bytes).length := by decide +kernel
  obtain ⟨len, lengths, ⟨-, stray, -⟩ | found⟩ :=
    next_longest_match ranked nestedRules "" here more
  · have symbol : t.symbol = 1 := congrArg Prod.fst token
    exact absurd (symbol.symm.trans stray) (by decide)
  · obtain ⟨front, rule, back, split, -, longest, -, -, -, start, stop, -⟩ := found
    have seven : len rule = 7 := by
      have places : (t.start, t.stop) = (1, 8) := congrArg (fun fields => fields.2.2) token
      have first : t.start = 1 := congrArg Prod.fst places
      have last : t.stop = 8 := congrArg Prod.snd places
      have start : t.start = c.offset := start
      have stop : t.stop = c.offset + len rule := stop
      omega
    have member : rule ∈ (make nested nestedRules "").rules := by
      show rule ∈ nestedRules.filter (·.isLiteral) ++ nestedRules.filter (!·.isLiteral)
      rw [split]
      simp
    exact ⟨ranked, token, len, lengths, ⟨rule, mem_rules_make.mp member, seven⟩, seven ▸ longest⟩

end Lexer

end GrammarCompletion
