import GrammarCompletion.Lexer.Match

/-!
# The branches of the matcher

The five functions of the matcher call each other, thread what they remember and carry the names that
are being visited. Each of their branches is a rule of one relation between a call and its result, and
every call is so related to its result. What holds of every match is then proved by induction on the
rules.
-/

namespace GrammarCompletion.Lexer

open Ebnf

/-- What the matcher is asked to match at a spot. -/
inductive Part where
  | expr (e : Expr)
  | name (name : Bytes)
  /-- One after the other behind a length already matched. -/
  | sequence (total : Nat) (items : List Expr)
  | longest (items : List Expr)
  | repetition (body : Expr)

def Part.before : Part → Nat
  | .sequence total _ => total
  | .expr _ | .name _ | .longest _ | .repetition _ => 0

/-- The calls of the matcher and their results, one rule for each branch. -/
inductive Matches (source : Source) : List Key → Part → Spot → Memo → Nat × Memo → Prop
  | literal (visiting : List Key) (text : Located) (s : Spot) (memo : Memo) :
    Matches source visiting (.expr (.literal text)) s memo (literalLength text.text s.rest, memo)
  | range (visiting : List Key) (first last : Located) (s : Spot) (memo : Memo) :
    Matches source visiting (.expr (.range first last)) s memo
      (rangeLength first.text last.text s.rest, memo)
  | name {visiting : List Key} {n : Located} {s : Spot} {memo : Memo} {result : Nat × Memo}
    (h : Matches source visiting (.name n.text) s memo result) :
    Matches source visiting (.expr (.name n)) s memo result
  | sequence {visiting : List Key} {items : List Expr} {s : Spot} {memo : Memo} {result : Nat × Memo}
    (h : Matches source visiting (.sequence 0 items) s memo result) :
    Matches source visiting (.expr (.sequence items)) s memo result
  | alternative {visiting : List Key} {items : List Expr} {s : Spot} {memo : Memo}
    {result : Nat × Memo} (h : Matches source visiting (.longest items) s memo result) :
    Matches source visiting (.expr (.alternative items)) s memo result
  | group {visiting : List Key} {body : Expr} {s : Spot} {memo : Memo} {result : Nat × Memo}
    (h : Matches source visiting (.expr body) s memo result) :
    Matches source visiting (.expr (.group body)) s memo result
  | option {visiting : List Key} {body : Expr} {s : Spot} {memo : Memo} {result : Nat × Memo}
    (h : Matches source visiting (.expr body) s memo result) :
    Matches source visiting (.expr (.option body)) s memo result
  | repetition {visiting : List Key} {body : Expr} {s : Spot} {memo : Memo} {result : Nat × Memo}
    (h : Matches source visiting (.repetition body) s memo result) :
    Matches source visiting (.expr (.repetition body)) s memo result
  | known (visiting : List Key) {name : Bytes} {s : Spot} {memo : Memo} {n : Nat}
    (found : memo.find? ⟨name, s.offset⟩ = some n) :
    Matches source visiting (.name name) s memo (n, memo)
  /-- A name that is being visited at this spot is cut off, and this is not remembered. -/
  | cycle {visiting : List Key} {name : Bytes} {s : Spot} {memo : Memo}
    (unknown : memo.find? ⟨name, s.offset⟩ = none)
    (active : visiting.contains ⟨name, s.offset⟩ = true) :
    Matches source visiting (.name name) s memo (0, memo)
  | missing {visiting : List Key} {name : Bytes} {s : Spot} {memo : Memo}
    (unknown : memo.find? ⟨name, s.offset⟩ = none)
    (isNew : visiting.contains ⟨name, s.offset⟩ = false) (undefined : source.body? name = none) :
    Matches source visiting (.name name) s memo (0, (⟨name, s.offset⟩, 0) :: memo)
  | production {visiting : List Key} {name : Bytes} {body : Expr} {s : Spot} {memo memo' : Memo}
    {n : Nat} (unknown : memo.find? ⟨name, s.offset⟩ = none)
    (isNew : visiting.contains ⟨name, s.offset⟩ = false) (defined : source.body? name = some body)
    (h : Matches source (⟨name, s.offset⟩ :: visiting) (.expr body) s memo (n, memo')) :
    Matches source visiting (.name name) s memo (n, (⟨name, s.offset⟩, n) :: memo')
  | done (visiting : List Key) (total : Nat) (s : Spot) (memo : Memo) :
    Matches source visiting (.sequence total []) s memo (total, memo)
  /-- An item that must match something does not. -/
  | failed {visiting : List Key} {total n : Nat} {x : Expr} {items : List Expr} {s : Spot}
    {memo memo' : Memo} (first : Matches source visiting (.expr x) s memo (n, memo'))
    (fail : n = 0 ∧ (!isOptional x) = true) :
    Matches source visiting (.sequence total (x :: items)) s memo (0, memo')
  | next {visiting : List Key} {total n : Nat} {x : Expr} {items : List Expr} {s : Spot}
    {memo memo' : Memo} {result : Nat × Memo}
    (first : Matches source visiting (.expr x) s memo (n, memo'))
    (passed : ¬(n = 0 ∧ (!isOptional x) = true))
    (others : Matches source visiting (.sequence (total + n) items) (s.advance n) memo' result) :
    Matches source visiting (.sequence total (x :: items)) s memo result
  | noChoice (visiting : List Key) (s : Spot) (memo : Memo) :
    Matches source visiting (.longest []) s memo (0, memo)
  | choice {visiting : List Key} {n best : Nat} {x : Expr} {items : List Expr} {s : Spot}
    {memo memo' memo'' : Memo} (first : Matches source visiting (.expr x) s memo (n, memo'))
    (others : Matches source visiting (.longest items) s memo' (best, memo'')) :
    Matches source visiting (.longest (x :: items)) s memo (max n best, memo'')
  | again {visiting : List Key} {body : Expr} {n total : Nat} {s : Spot} {memo memo' memo'' : Memo}
    (first : Matches source visiting (.expr body) s memo (n, memo')) (more : n ≠ 0 ∧ s.rest ≠ [])
    (others : Matches source visiting (.repetition body) (s.advance n) memo' (total, memo'')) :
    Matches source visiting (.repetition body) s memo (n + total, memo'')
  | once {visiting : List Key} {body : Expr} {n : Nat} {s : Spot} {memo memo' : Memo}
    (first : Matches source visiting (.expr body) s memo (n, memo'))
    (stop : ¬(n ≠ 0 ∧ s.rest ≠ [])) :
    Matches source visiting (.repetition body) s memo (n, memo')

variable {source : Source} {visiting : List Key} {name : Bytes} {s : Spot} {memo : Memo}

theorem matchName_of_body?_eq_none (unknown : memo.find? ⟨name, s.offset⟩ = none)
    (isNew : visiting.contains ⟨name, s.offset⟩ = false) (missing : source.body? name = none) :
    matchName source visiting name s memo = (0, (⟨name, s.offset⟩, 0) :: memo) := by
  rw [matchName, unknown]
  simp only [dif_pos isNew]
  split
  · rfl
  · next p found =>
    split
    · rfl
    · next e body => simp [Source.body?, found, body] at missing

theorem matchName_of_body?_eq_some {e : Expr} {result : Nat × Memo}
    (unknown : memo.find? ⟨name, s.offset⟩ = none)
    (isNew : visiting.contains ⟨name, s.offset⟩ = false) (defined : source.body? name = some e)
    (matched : matchExpr source (⟨name, s.offset⟩ :: visiting) e s memo = result) :
    matchName source visiting name s memo = (result.1, (⟨name, s.offset⟩, result.1) :: result.2) := by
  rw [matchName, unknown]
  simp only [dif_pos isNew]
  split
  · next missing => simp [Source.body?, missing] at defined
  · next p found =>
    split
    · next missing => simp [Source.body?, found, missing] at defined
    · next e' body =>
      obtain rfl : e' = e := by simpa [Source.body?, found, body] using defined
      rw [matched]

theorem match_matches (source : Source) :
    (∀ visiting e s memo, Matches source visiting (.expr e) s memo
      (matchExpr source visiting e s memo)) ∧
    (∀ visiting body s memo, Matches source visiting (.repetition body) s memo
      (matchRepetition source visiting body s memo)) ∧
    (∀ visiting items s memo, Matches source visiting (.longest items) s memo
      (matchLongest source visiting items s memo)) ∧
    (∀ visiting total items s memo, Matches source visiting (.sequence total items) s memo
      (matchSequence source visiting total items s memo)) ∧
    (∀ visiting name s memo, Matches source visiting (.name name) s memo
      (matchName source visiting name s memo)) := by
  refine matchExpr.mutual_induct source _ _ _ _ _ ?literal ?range ?name ?sequence ?alternative ?group
    ?option ?repetition ?again ?once ?noChoice ?choice ?done ?failed ?next ?known ?undefined ?blank
    ?production ?cycle
  case literal =>
    intro visiting s memo text
    rw [matchExpr]
    exact .literal visiting text s memo
  case range =>
    intro visiting s memo first last
    rw [matchExpr]
    exact .range visiting first last s memo
  case name =>
    intro visiting s memo n h
    rw [matchExpr]
    exact .name h
  case sequence =>
    intro visiting s memo items h
    rw [matchExpr]
    exact .sequence h
  case alternative =>
    intro visiting s memo items h
    rw [matchExpr]
    exact .alternative h
  case group =>
    intro visiting s memo body h
    rw [matchExpr]
    exact .group h
  case option =>
    intro visiting s memo body h
    rw [matchExpr]
    exact .option h
  case repetition =>
    intro visiting s memo body h
    rw [matchExpr]
    exact .repetition h
  case again =>
    intro visiting body s memo n memo' first more total memo'' rest h others
    rw [first] at h
    rw [rest] at others
    rw [matchRepetition, first]
    simp only [dif_pos more, rest]
    exact .again h more others
  case once =>
    intro visiting body s memo n memo' first stop h
    rw [first] at h
    rw [matchRepetition, first]
    simp only [dif_neg stop]
    exact .once h stop
  case noChoice =>
    intro visiting s memo
    rw [matchLongest]
    exact .noChoice visiting s memo
  case choice =>
    intro visiting s memo x items n memo' first best memo'' rest h others
    rw [first] at h
    rw [rest] at others
    rw [matchLongest, first]
    simp only [rest]
    exact .choice h others
  case done =>
    intro visiting total s memo
    rw [matchSequence]
    exact .done visiting total s memo
  case failed =>
    intro visiting total s memo x items n memo' first fail h
    rw [first] at h
    rw [matchSequence, first]
    dsimp only
    rw [if_pos fail]
    exact .failed h fail
  case next =>
    intro visiting total s memo x items n memo' first passed h others
    rw [first] at h
    rw [matchSequence, first]
    dsimp only
    rw [if_neg passed]
    exact .next h passed others
  case known =>
    intro visiting name s memo n found
    rw [matchName]
    simp only [found]
    exact .known visiting found
  case undefined =>
    intro visiting name s memo unknown isNew absent
    have undefined : source.body? name = none := by simp [Source.body?, absent]
    rw [matchName_of_body?_eq_none unknown isNew undefined]
    exact .missing unknown isNew undefined
  case blank =>
    intro visiting name s memo unknown isNew p found blank
    have undefined : source.body? name = none := by simp [Source.body?, found, blank]
    rw [matchName_of_body?_eq_none unknown isNew undefined]
    exact .missing unknown isNew undefined
  case production =>
    intro visiting name s memo unknown isNew p found e body n memo' matched h
    have defined : source.body? name = some e := by simp [Source.body?, found, body]
    rw [matchName_of_body?_eq_some unknown isNew defined matched]
    rw [matched] at h
    exact .production unknown isNew defined h
  case cycle =>
    intro visiting name s memo unknown active
    rw [matchName, unknown]
    simp only [dif_neg active]
    exact .cycle unknown (by simpa using active)

theorem matchExpr_matches (source : Source) (visiting : List Key) (e : Expr) (s : Spot)
    (memo : Memo) : Matches source visiting (.expr e) s memo (matchExpr source visiting e s memo) :=
  (match_matches source).1 visiting e s memo

/-- A call has one result. -/
theorem Matches.unique {source : Source} {visiting : List Key} {part : Part} {s : Spot} {memo : Memo}
    {result result' : Nat × Memo} (h : Matches source visiting part s memo result)
    (h' : Matches source visiting part s memo result') : result = result' := by
  induction h generalizing result' with
  | literal | range | done | noChoice => cases h'; rfl
  | name _ ih | sequence _ ih | alternative _ ih | group _ ih | option _ ih | repetition _ ih =>
    cases h' with
    | _ h' => exact ih h'
  | known visiting found =>
    cases h' with
    | known _ found' => rw [Option.some.inj (found.symm.trans found')]
    | cycle unknown | missing unknown | production unknown =>
      rw [found] at unknown
      cases unknown
  | cycle unknown active =>
    cases h' with
    | known _ found =>
      rw [found] at unknown
      cases unknown
    | cycle => rfl
    | missing _ isNew | production _ isNew =>
      rw [active] at isNew
      cases isNew
  | missing unknown isNew undefined =>
    cases h' with
    | known _ found =>
      rw [found] at unknown
      cases unknown
    | cycle _ active =>
      rw [active] at isNew
      cases isNew
    | missing => rfl
    | production _ _ defined _ =>
      rw [defined] at undefined
      cases undefined
  | production unknown isNew defined _ ih =>
    cases h' with
    | known _ found =>
      rw [found] at unknown
      cases unknown
    | cycle _ active =>
      rw [active] at isNew
      cases isNew
    | missing _ _ undefined =>
      rw [defined] at undefined
      cases undefined
    | production _ _ defined' h' =>
      cases defined.symm.trans defined'
      cases ih h'
      rfl
  | failed first fail ih =>
    cases h' with
    | failed first' =>
      cases ih first'
      rfl
    | next first' passed _ =>
      cases ih first'
      exact absurd fail passed
  | next first passed others ih ih' =>
    cases h' with
    | failed first' fail =>
      cases ih first'
      exact absurd fail passed
    | next first' _ others' =>
      cases ih first'
      exact ih' others'
  | choice first others ih ih' =>
    cases h' with
    | choice first' others' =>
      cases ih first'
      cases ih' others'
      rfl
  | again first more others ih ih' =>
    cases h' with
    | again first' _ others' =>
      cases ih first'
      cases ih' others'
      rfl
    | once first' stop =>
      cases ih first'
      exact absurd more stop
  | once first stop ih =>
    cases h' with
    | again first' more _ =>
      cases ih first'
      exact absurd more stop
    | once first' _ => exact ih first'

end GrammarCompletion.Lexer
