import GrammarCompletion.Proofs.Lexer.Positions

/-!
# Lexing restarts at every token

Where a token starts, the lexer could as well have been started on the rest of the text. The matcher knows
offsets only as keys of what it visits and remembers, and does the same when all of them are moved; what is
left decides the next token. So the tokens from there on are those of the rest, with their places moved by
what stands before.
-/

namespace GrammarCompletion

open Ebnf

namespace Lexer

/-! ## Shifting -/

def Key.shift (k : Nat) (key : Key) : Key := ⟨key.name, key.offset + k⟩

def Spot.shift (k : Nat) (s : Spot) : Spot := ⟨s.offset + k, s.rest⟩

def Memo.shift (k : Nat) (memo : Memo) : Memo := memo.map fun entry => (entry.1.shift k, entry.2)

theorem Key.shift_injective (k : Nat) : Function.Injective (Key.shift k) := by
  intro a b same
  cases a
  cases b
  simpa [Key.shift] using same

theorem Spot.advance_shift (k n : Nat) (s : Spot) : (s.shift k).advance n = (s.advance n).shift k := by
  fun_induction Spot.advance n s with
  | case1 s => simp [advance]
  | case2 n offset => simp [advance, shift]
  | case3 n offset b rest ih =>
    have next : (⟨offset + 1, rest⟩ : Spot).shift k = ⟨offset + k + 1, rest⟩ := by
      simp only [shift, Nat.add_right_comm]
    rw [next] at ih
    exact ih

theorem Memo.find?_shift (k : Nat) (memo : Memo) (key : Key) :
    (memo.shift k).find? (key.shift k) = memo.find? key := by
  induction memo with
  | nil => rfl
  | cons entry memo ih =>
    obtain ⟨other, n⟩ := entry
    have step : Memo.find? (Memo.shift k ((other, n) :: memo)) (key.shift k) =
        if (other.shift k).offset = (key.shift k).offset ∧ other.name = key.name then some n
        else Memo.find? (Memo.shift k memo) (key.shift k) := rfl
    rw [step, ih]
    simp [Memo.find?, Key.shift]

theorem contains_shift (k : Nat) (visiting : List Key) (key : Key) :
    (visiting.map (Key.shift k)).contains (key.shift k) = visiting.contains key := by
  rw [Bool.eq_iff_iff, List.contains_iff_mem, List.contains_iff_mem,
    List.mem_map_of_injective (Key.shift_injective k)]

theorem Matches.shift (k : Nat) {source : Source} {visiting : List Key} {part : Part} {s : Spot}
    {memo : Memo} {result : Nat × Memo} (h : Matches source visiting part s memo result) :
    Matches source (visiting.map (Key.shift k)) part (s.shift k) (memo.shift k)
      (result.1, result.2.shift k) := by
  induction h with
  | literal visiting text s memo => exact .literal _ text (s.shift k) _
  | range visiting first last s memo => exact .range _ first last (s.shift k) _
  | name _ ih => exact .name ih
  | sequence _ ih => exact .sequence ih
  | alternative _ ih => exact .alternative ih
  | group _ ih => exact .group ih
  | option _ ih => exact .option ih
  | repetition _ ih => exact .repetition ih
  | known visiting found => exact .known _ ((Memo.find?_shift k _ _).trans found)
  | cycle unknown active =>
    exact .cycle ((Memo.find?_shift k _ _).trans unknown) ((contains_shift k _ _).trans active)
  | missing unknown isNew undefined =>
    exact .missing ((Memo.find?_shift k _ _).trans unknown) ((contains_shift k _ _).trans isNew) undefined
  | production unknown isNew defined _ ih =>
    exact .production ((Memo.find?_shift k _ _).trans unknown) ((contains_shift k _ _).trans isNew)
      defined ih
  | done visiting total s memo => exact .done _ total (s.shift k) _
  | failed first fail ih => exact .failed ih fail
  | next first passed others ih ih' =>
    rw [← Spot.advance_shift] at ih'
    exact .next ih passed ih'
  | noChoice visiting s memo => exact .noChoice _ (s.shift k) _
  | choice first others ih ih' => exact .choice ih ih'
  | again first more others ih ih' =>
    rw [← Spot.advance_shift] at ih'
    exact .again ih more ih'
  | once first stop ih => exact .once ih stop

theorem matchExpr_shift (k : Nat) (source : Source) (visiting : List Key) (e : Expr) (s : Spot)
    (memo : Memo) :
    matchExpr source (visiting.map (Key.shift k)) e (s.shift k) (memo.shift k) =
      ((matchExpr source visiting e s memo).1, (matchExpr source visiting e s memo).2.shift k) :=
  (matchExpr_matches ..).unique ((matchExpr_matches source visiting e s memo).shift k)

theorem bestOf_shift (k : Nat) (source : Source) (rest : Bytes) (rules : List LexRule) (memo : Memo)
    (best : Option (LexRule × Nat)) :
    bestOf source ⟨k, rest⟩ rules (memo.shift k) best = bestOf source ⟨0, rest⟩ rules memo best := by
  have matched (body : Expr) (memo : Memo) := matchExpr_shift k source [] body ⟨0, rest⟩ memo
  simp only [Spot.shift, Nat.zero_add, List.map_nil] at matched
  fun_induction bestOf source ⟨0, rest⟩ rules memo best with
  | case1 => rfl
  | case2 rule rules memo best bodiless ih => rw [bestOf, bodiless, ← ih]
  | case3 rule rules memo best body defined n memo' result longer ih =>
    rw [bestOf, defined]
    simp only [matched, result, if_pos longer]
    exact ih
  | case4 rule rules memo best body defined n memo' result shorter ih =>
    rw [bestOf, defined]
    simp only [matched, result, if_neg shorter]
    exact ih

/-- What the rules match at a spot depends on what follows it alone. -/
theorem bestAt?_eq (l : Lexer) (s : Spot) : l.bestAt? s = l.best? s.rest :=
  bestOf_shift s.offset l.source s.rest l.rules [] none

end Lexer

/-! ## Tokens behind a place -/

/-- How much stands before a place of a text: tokens, bytes, ends of lines, and bytes of its own line. -/
structure Preceding where
  tokens : Nat
  bytes : Nat
  lines : Nat
  columns : Nat

/-- A token of the text behind a place, as a token of the whole text. Only on the first line do its
columns count what stands before the place. -/
def Token.behind (p : Preceding) (t : Token) : Token :=
  { t with
    index := t.index + p.tokens
    start := t.start + p.bytes
    stop := t.stop + p.bytes
    line := t.line + p.lines
    column := if t.line = 1 then t.column + p.columns else t.column }

namespace Lexer

namespace Cursor

/-- A cursor in the text behind a place, as a cursor in the whole text. -/
def behind (p : Preceding) (c : Cursor) : Cursor :=
  { rest := c.rest
    index := c.index + p.tokens
    offset := c.offset + p.bytes
    line := c.line + p.lines
    column := if c.line = 1 then c.column + p.columns else c.column }

variable (p : Preceding) {c : Cursor}

/-- Behind the first end of a line, columns are the same in both texts. -/
theorem behind_advance_one (counted : 1 ≤ c.line) :
    (c.behind p).advance 1 = (c.advance 1).behind p := by
  cases front : c.rest with
  | nil => simp [advance, behind, front]
  | cons b rest =>
    have front' : (c.behind p).rest = b :: rest := front
    have later : ¬ c.line + 1 = 1 := by omega
    rw [advance_one_of_eq front, advance_one_of_eq front']
    by_cases isEnd : b = Bytes.newline
    · simp only [if_pos isEnd, behind, if_neg later, Nat.add_right_comm]
    · simp only [if_neg isEnd, behind, Nat.add_right_comm]
      split <;> rfl

theorem one_le_line_advance (counted : 1 ≤ c.line) (n : Nat) : 1 ≤ (c.advance n).line := by
  induction n generalizing c with
  | zero => exact counted
  | succ n ih =>
    unfold advance
    split
    · exact counted
    · split
      · exact ih (Nat.le_add_left 1 c.line)
      · exact ih counted

theorem behind_advance (counted : 1 ≤ c.line) (n : Nat) :
    (c.behind p).advance n = (c.advance n).behind p := by
  induction n generalizing c with
  | zero => rfl
  | succ n ih =>
    rw [advance_succ, behind_advance_one p counted, ih (one_le_line_advance counted 1), ← advance_succ]

end Cursor

/-! ## One step -/

section

variable (p : Preceding) {c : Cursor}

theorem behind_tokenBetween (c next : Cursor) (symbol : Symbol) (text : Bytes) (channel : Int) :
    tokenBetween (c.behind p) (next.behind p) symbol text channel =
      (tokenBetween c next symbol text channel).behind p := by
  have column : ((c.behind p).column : Int) =
      if (c.line : Int) = 1 then (c.column : Int) + p.columns else c.column := by
    by_cases first : c.line = 1
    · simp [Cursor.behind, first]
    · have first' : ¬(c.line : Int) = 1 := by omega
      simp only [Cursor.behind, if_neg first, if_neg first']
  simp only [tokenBetween, Token.behind, column]
  rfl

/-- What the next token is depends on what is left alone. -/
theorem next_behind (l : Lexer) (counted : 1 ≤ c.line) :
    l.next (c.behind p) = ((l.next c).1.behind p, (l.next c).2.behind p) := by
  have index : c.index + 1 + p.tokens = c.index + p.tokens + 1 := Nat.add_right_comm ..
  have rest : (c.behind p).rest = c.rest := rfl
  unfold next
  rw [rest]
  cases front : c.rest with
  | nil =>
    dsimp only
    rw [behind_tokenBetween]
    simp only [Cursor.behind, index]
  | cons b _ =>
    dsimp only
    cases best : l.best? (b :: _) with
    | none =>
      dsimp only
      rw [Cursor.behind_advance p counted, behind_tokenBetween]
      simp only [Cursor.behind, index]
    | some choice =>
      dsimp only
      rw [Cursor.behind_advance p counted, behind_tokenBetween]
      simp only [Cursor.behind, index]

theorem one_le_line_next (l : Lexer) (counted : 1 ≤ c.line) : 1 ≤ (l.next c).2.line := by
  obtain ⟨n, symbol, covered, channel, -, next⟩ := l.next_reads c
  rw [next]
  exact Cursor.one_le_line_advance counted n

theorem tokensFrom_behind (l : Lexer) (counted : 1 ≤ c.line) :
    (l.tokensFrom (c.behind p)).1 = (l.tokensFrom c).1.map (Token.behind p) := by
  induction c using Cursor.induction l with
  | finish c empty =>
    have empty' : (c.behind p).rest = [] := empty
    rw [tokensFrom_of_eq_nil empty, tokensFrom_of_eq_nil empty', next_behind p l counted]
    rfl
  | step c more ih =>
    have more' : (c.behind p).rest ≠ [] := more
    rw [tokensFrom_of_ne_nil more, tokensFrom_of_ne_nil more', next_behind p l counted]
    rw [ih (l.one_le_line_next counted)]
    rfl

end

/-! ## Where tokens start -/

section

variable {text : Bytes} {c : Cursor}

theorem index_after (l : Lexer) (calls : Nat) (c : Cursor) :
    (l.after calls c).index = c.index + calls := by
  induction calls generalizing c with
  | zero => rfl
  | succ calls ih =>
    rw [after, ih, (l.index_next c).2]
    omega

theorem placed_after (l : Lexer) (calls : Nat) (here : c.Placed text) :
    (l.after calls c).Placed text := by
  induction calls generalizing c with
  | zero => exact here
  | succ calls ih => exact ih (l.placed_next here)

theorem offset_lt_next (l : Lexer) (more : c.rest ≠ []) : c.offset < (l.next c).2.offset := by
  have shorter := l.next_shorter more
  have length : 0 < c.rest.length := List.length_pos_iff.mpr more
  obtain ⟨n, symbol, covered, channel, -, next⟩ := l.next_reads c
  rw [next] at shorter ⊢
  simp only [Cursor.rest_advance, List.length_drop] at shorter
  simp only [Cursor.offset_advance]
  omega

theorem offset_le_start (l : Lexer) (c : Cursor) :
    ∀ t ∈ (l.tokensFrom c).1, (c.offset : Int) ≤ t.start := by
  induction c using Cursor.induction l with
  | finish c empty =>
    rw [tokensFrom_of_eq_nil empty]
    simp [start_next]
  | step c more ih =>
    rw [tokensFrom_of_ne_nil more, List.forall_mem_cons]
    have further := l.offset_lt_next more
    refine ⟨Int.le_of_eq (l.start_next c).symm, fun t member => ?_⟩
    have := ih t member
    omega

/-- Every token is the next one for the cursor after as many calls as there are tokens before it. -/
theorem tokensFrom_split_at (l : Lexer) {t : Token} (member : t ∈ (l.tokensFrom c).1) :
    ∃ front later, (l.tokensFrom c).1 = front ++ t :: later ∧
      t :: later = (l.tokensFrom (l.after front.length c)).1 ∧
      t.start = (l.after front.length c).offset ∧ ∀ u ∈ front, u.start < t.start := by
  induction c using Cursor.induction l with
  | finish c empty =>
    have only := tokensFrom_of_eq_nil (l := l) empty
    rw [only, List.mem_singleton] at member
    exact ⟨[], [], by rw [only, member]; rfl, by rw [member]; exact only.symm,
      by rw [member]; exact l.start_next c, by simp⟩
  | step c more ih =>
    have tokens := tokensFrom_of_ne_nil (l := l) more
    rw [tokens] at member
    rcases List.mem_cons.mp member with rfl | member
    · exact ⟨[], _, tokens, tokens.symm, l.start_next c, by simp⟩
    · obtain ⟨front, later, split, rest, start, before⟩ := ih member
      have first : (l.next c).1.start < t.start := by
        have := l.offset_lt_next more
        have := offset_le_start l _ t member
        rw [start_next]
        omega
      exact ⟨(l.next c).1 :: front, later, by rw [tokens, split]; rfl, rest, start,
        List.forall_mem_cons.mpr ⟨first, before⟩⟩

theorem filter_start_lt {tokens front later : List Token} {t : Token} (split : tokens = front ++ t :: later)
    (earlier : ∀ u ∈ front, u.start < t.start) (others : ∀ u ∈ t :: later, t.start ≤ u.start) :
    (tokens.filter fun u => u.start < t.start) = front := by
  have kept : front.filter (fun u => u.start < t.start) = front :=
    List.filter_eq_self.mpr fun u inside => decide_eq_true (earlier u inside)
  have dropped : (t :: later).filter (fun u => u.start < t.start) = [] :=
    List.filter_eq_nil_iff.mpr fun u inside less =>
      absurd (of_decide_eq_true less) (Int.not_lt.mpr (others u inside))
  rw [split, List.filter_append, kept, dropped, List.append_nil]

theorem Cursor.Placed.eq_behind (here : c.Placed text) {columns : Nat} (column : c.column = 1 + columns) :
    c = (Cursor.start (text.drop c.offset)).behind
      ⟨c.index, c.offset, (text.take c.offset).count Bytes.newline, columns⟩ := by
  show c = ⟨text.drop c.offset, 0 + c.index, 0 + c.offset, 1 + (text.take c.offset).count Bytes.newline,
    1 + columns⟩
  rw [← here.rest_eq, ← here.line_eq, ← column, Nat.zero_add, Nat.zero_add]

end

/-- At the start of any token, lexing restarts: the tokens from there on are those of the rest of the
text, moved by the tokens, bytes and lines before them, and as many calls as there are tokens before lead
there. What the rules match at a place is the same whether names are remembered by their offsets in the
whole text or by those in the rest. -/
theorem tokenize_restarts (source : Source) (rules : List LexRule) (file text : Bytes) {t : Token}
    (member : t ∈ ((make source rules file).tokenize text).1) :
    let l := make source rules file
    let tokens := (l.tokenize text).1
    let before := tokens.filter fun u => u.start < t.start
    let k := t.start.toNat
    t.start = k ∧ k ≤ text.length ∧
    (∃ line, IsLastLine (text.take k) line ∧ ∃ later, tokens = before ++ t :: later ∧
      t :: later = (l.tokenize (text.drop k)).1.map
        (Token.behind ⟨before.length, k, (text.take k).count Bytes.newline, line.length⟩)) ∧
    (l.after before.length (Cursor.start text)).offset = k ∧
    ∀ s : Spot, l.bestAt? s = l.best? s.rest := by
  intro l tokens before k
  obtain ⟨front, later, split, rest, start, earlier⟩ := l.tokensFrom_split_at member
  have placed : (l.after front.length (Cursor.start text)).Placed text :=
    l.placed_after front.length (Cursor.Placed.start text)
  have index : (l.after front.length (Cursor.start text)).index = front.length := by
    rw [index_after]
    exact Nat.zero_add _
  have front_eq : before = front := by
    refine filter_start_lt split earlier ?_
    rw [rest, start]
    exact offset_le_start l _
  have k_eq : k = (l.after front.length (Cursor.start text)).offset := by
    show t.start.toNat = _
    rw [start, Int.toNat_natCast]
  obtain ⟨line, last, column⟩ := placed.column_eq
  have place := placed.eq_behind column
  rw [front_eq]
  rw [← k_eq] at last place
  rw [index] at place
  refine ⟨by omega, k_eq ▸ placed.within, ⟨line, last, later, split, ?_⟩, k_eq.symm, l.bestAt?_eq⟩
  rw [rest, place, tokensFrom_behind _ l (Nat.le_refl 1)]
  rfl

/-- Lists of letters, each longer list written behind a shorter one. -/
def listing : Source :=
  [⟨.unplaced "list", some (.alternative [.sequence [.name (.unplaced "list"), .literal (.unplaced ","),
      .name (.unplaced "item")], .name (.unplaced "item")])⟩,
    ⟨.unplaced "item", some (.range (.unplaced "a") (.unplaced "z"))⟩]

def listingRules : List LexRule :=
  [⟨"list", 1, some (.name (.unplaced "list")), false, false⟩,
    ⟨"break", 2, some (.literal (.unplaced "\n")), true, true⟩]

theorem tokenize_restarts_listing :
    let l := make listing listingRules ""
    let tokens := (l.tokenize "a,b\nc?d").1
    let t : Token := ⟨4, 1, "c", Token.defaultChannel, 4, 5, 2, 1⟩
    t ∈ tokens ∧ ∃ line, IsLastLine "a,b\n" line ∧ ∃ later,
      tokens = tokens.filter (fun u => u.start < 4) ++ t :: later ∧
      t :: later = (l.tokenize "c?d").1.map (Token.behind ⟨4, 4, 1, line.length⟩) := by
  intro l tokens t
  have member : t ∈ tokens := by decide +kernel
  have before : (tokens.filter fun u => u.start < t.start).length = 4 := by decide +kernel
  have lines : (("a,b\nc?d" : Bytes).take t.start.toNat).count Bytes.newline = 1 := by decide +kernel
  obtain ⟨-, -, ⟨line, last, later, split, rest⟩, -, -⟩ :=
    tokenize_restarts listing listingRules "" "a,b\nc?d" member
  have moved : t :: later = (l.tokenize "c?d").1.map (Token.behind
      ⟨(tokens.filter fun u => u.start < t.start).length, 4,
        (("a,b\nc?d" : Bytes).take t.start.toNat).count Bytes.newline, line.length⟩) := rest
  rw [before, lines] at moved
  exact ⟨member, line, last, later, split, moved⟩

end Lexer

end GrammarCompletion
