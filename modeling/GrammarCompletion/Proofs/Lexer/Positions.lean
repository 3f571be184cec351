import GrammarCompletion.Proofs.Lexer.Tokens
import Mathlib.Data.List.Chain

/-!
# Where tokens stand

The tokens of a text cover it without gaps, and each knows its line and its column. A cursor passes
over a text byte by byte, so its place is an invariant of single bytes; where tokens start and end
then follows from where the cursor stood.
-/

namespace GrammarCompletion

/-- The last line of a text: what stands behind its last end of line. -/
structure IsLastLine (text line : Bytes) : Prop where
  unbroken : Bytes.newline ∉ line
  behind : text = line ∨ ∃ before, text = before ++ Bytes.newline :: line

namespace IsLastLine

variable {text line : Bytes} {b : UInt8}

theorem nil : IsLastLine [] [] := ⟨by simp, .inl rfl⟩

theorem append_newline (text : Bytes) : IsLastLine (text ++ [Bytes.newline]) [] :=
  ⟨by simp, .inr ⟨text, rfl⟩⟩

theorem append (h : IsLastLine text line) (other : b ≠ Bytes.newline) :
    IsLastLine (text ++ [b]) (line ++ [b]) := by
  constructor
  · have inside := h.unbroken
    simp [inside, other.symm]
  · rcases h.behind with rfl | ⟨before, rfl⟩
    · exact .inl rfl
    · exact .inr ⟨before, by simp⟩

end IsLastLine

/-- The token has the line and the column of its start: as many lines end before it, and as many
bytes of its line stand before it. Both count from one. -/
def Token.Placed (text : Bytes) (t : Token) : Prop :=
  ∃ (offset : Nat) (line : Bytes), t.start = offset ∧ offset ≤ text.length ∧
    IsLastLine (text.take offset) line ∧
    t.line = 1 + ((text.take offset).count Bytes.newline : Int) ∧ t.column = 1 + (line.length : Int)

/-- The token takes some bytes, and only one if no rule matches. It does not end the input. -/
structure Token.Covers (t : Token) : Prop where
  symbol_ne : t.symbol ≠ Symbol.endOfInput
  nonempty : t.start < t.stop
  single : t.symbol = Symbol.invalid → t.stop = t.start + 1

/-- The tokens are numbered from zero and cover the text from end to end: one ends where the next one
starts. The last token, and no other, ends the input. -/
structure Partitions (text : Bytes) (tokens : List Token) : Prop where
  numbered : ∀ (i : Nat) (t : Token), tokens[i]? = some t → t.index = i
  first : ∀ t ∈ tokens.head?, t.start = 0
  adjoining : tokens.IsChain fun t u => t.stop = u.start
  ending : ∃ front last, tokens = front ++ [last] ∧ last.Finishes text ∧ ∀ t ∈ front, t.Covers
  placed : ∀ t ∈ tokens, t.Placed text

namespace Lexer

variable {text : Bytes} {c : Cursor} {l : Lexer}

/-! ## Cursors -/

namespace Cursor

structure Placed (text : Bytes) (c : Cursor) : Prop extends c.At text where
  line_eq : c.line = 1 + (text.take c.offset).count Bytes.newline
  column_eq : ∃ line, IsLastLine (text.take c.offset) line ∧ c.column = 1 + line.length

theorem Placed.start (text : Bytes) : Placed text (Cursor.start text) where
  toAt := At.start text
  line_eq := by simp [Cursor.start]
  column_eq := ⟨[], by simpa [Cursor.start] using IsLastLine.nil, rfl⟩

theorem At.take_succ (here : c.At text) {b : UInt8} {rest : Bytes} (front : c.rest = b :: rest) :
    text.take (c.offset + 1) = text.take c.offset ++ [b] := by
  have next : text[c.offset]? = some b := by
    rw [← List.head?_drop, ← here.rest_eq, front, List.head?_cons]
  rw [List.take_add_one, next, Option.toList_some]

theorem advance_one_of_eq {b : UInt8} {rest : Bytes} (front : c.rest = b :: rest) :
    c.advance 1 =
      if b = Bytes.newline then { c with rest, offset := c.offset + 1, line := c.line + 1, column := 1 }
      else { c with rest, offset := c.offset + 1, column := c.column + 1 } := by
  unfold advance
  rw [front]
  rfl

theorem Placed.advance_one (here : c.Placed text) : (c.advance 1).Placed text := by
  have moved := here.toAt.advance 1
  cases front : c.rest with
  | nil =>
    have stays : c.advance 1 = c := by simp [advance, front]
    rw [stays]
    exact here
  | cons b rest =>
    have taken := here.toAt.take_succ front
    have line := here.line_eq
    obtain ⟨current, last, column⟩ := here.column_eq
    rw [advance_one_of_eq front] at moved ⊢
    by_cases isEnd : b = Bytes.newline
    · rw [if_pos isEnd] at moved ⊢
      rw [isEnd] at taken
      refine ⟨moved, ?_, [], ?_, rfl⟩
      · simp only [taken, List.count_append, List.count_singleton_self, line]
        omega
      · rw [taken]
        exact .append_newline _
    · rw [if_neg isEnd] at moved ⊢
      have uncounted : [b].count Bytes.newline = 0 := List.count_eq_zero.mpr (by simpa using Ne.symm isEnd)
      refine ⟨moved, ?_, current ++ [b], ?_, ?_⟩
      · simp only [taken, List.count_append, uncounted, line, Nat.add_zero]
      · rw [taken]
        exact last.append isEnd
      · simp only [column, List.length_append, List.length_singleton]
        omega

theorem advance_succ (n : Nat) (c : Cursor) : c.advance (n + 1) = (c.advance 1).advance n := by
  cases n with
  | zero => rfl
  | succ n =>
    cases front : c.rest with
    | nil => simp [advance, front]
    | cons b rest =>
      simp only [advance, front]
      split <;> rfl

theorem Placed.advance (here : c.Placed text) (n : Nat) : (c.advance n).Placed text := by
  induction n generalizing c with
  | zero => exact here
  | succ n ih =>
    rw [advance_succ]
    exact ih here.advance_one

end Cursor

theorem placed_next (l : Lexer) (here : c.Placed text) : (l.next c).2.Placed text := by
  obtain ⟨n, symbol, covered, channel, -, next⟩ := l.next_reads c
  have moved := here.advance n
  rw [next]
  exact ⟨⟨moved.within, moved.rest_eq⟩, moved.line_eq, moved.column_eq⟩

/-! ## Single tokens -/

theorem start_next (l : Lexer) (c : Cursor) : (l.next c).1.start = c.offset := by
  obtain ⟨n, symbol, covered, channel, -, next⟩ := l.next_reads c
  rw [next]
  rfl

theorem token_placed (l : Lexer) (here : c.Placed text) : (l.next c).1.Placed text := by
  obtain ⟨n, symbol, covered, channel, -, next⟩ := l.next_reads c
  obtain ⟨line, last, column⟩ := here.column_eq
  rw [next]
  refine ⟨c.offset, line, rfl, here.within, last, ?_, ?_⟩
  · simp [tokenBetween, here.line_eq]
  · simp [tokenBetween, column]

theorem covers_next (proper : ∀ rule ∈ l.rules, 1 ≤ rule.symbol) (more : c.rest ≠ []) :
    (l.next c).1.Covers := by
  have length : 0 < c.rest.length := List.length_pos_iff.mpr more
  obtain ⟨n, symbol, covered, channel, reads, next⟩ := l.next_reads c
  have stop : (c.advance n).offset = c.offset + min n c.rest.length := Cursor.offset_advance n c
  rw [next]
  cases reads with
  | finish empty => exact absurd empty more
  | stray front unmatched =>
    constructor
    · exact (by decide : Symbol.invalid ≠ Symbol.endOfInput)
    · simp only [tokenBetween, stop]
      omega
    · intro
      simp only [tokenBetween, stop]
      omega
  | matched more best =>
    have positive := best?_pos best
    have proper := proper _ (best?_chosen best).1
    constructor
    · intro isEnd
      have reserved : (1 : Symbol) ≤ Symbol.endOfInput := isEnd ▸ proper
      exact absurd reserved (by decide)
    · simp only [tokenBetween, stop]
      omega
    · intro stray
      have reserved : (1 : Symbol) ≤ Symbol.invalid := stray ▸ proper
      exact absurd reserved (by decide)

/-! ## All tokens -/

theorem start_head_tokensFrom (l : Lexer) (c : Cursor) :
    ∀ t ∈ (l.tokensFrom c).1.head?, t.start = c.offset := by
  by_cases empty : c.rest = []
  · rw [tokensFrom_of_eq_nil empty]
    simp [start_next]
  · rw [tokensFrom_of_ne_nil empty]
    simp [start_next]

/-- The next token ends where the cursor behind it stands, and there the token after it starts. -/
theorem adjoining_tokensFrom (l : Lexer) (c : Cursor) :
    (l.tokensFrom c).1.IsChain fun t u => t.stop = u.start := by
  induction c using Cursor.induction l with
  | finish c empty =>
    rw [tokensFrom_of_eq_nil empty]
    exact .singleton _
  | step c more ih =>
    rw [tokensFrom_of_ne_nil more, List.isChain_cons]
    refine ⟨fun u hu => ?_, ih⟩
    rw [(l.stop_next c).1, start_head_tokensFrom l _ u hu]

theorem placed_tokensFrom (l : Lexer) (here : c.Placed text) :
    ∀ t ∈ (l.tokensFrom c).1, t.Placed text := by
  induction c using Cursor.induction l with
  | finish c empty =>
    rw [tokensFrom_of_eq_nil empty]
    simpa using l.token_placed here
  | step c more ih =>
    rw [tokensFrom_of_ne_nil more, List.forall_mem_cons]
    exact ⟨l.token_placed here, ih (l.placed_next here)⟩

/-- The tokens of a text partition it and know their places, whatever the productions and rules are,
as long as the types of the rules are not reserved. -/
theorem tokenize_partitions (source : Ebnf.Source) (rules : List LexRule)
    (proper : ∀ rule ∈ rules, 1 ≤ rule.symbol) (file text : Bytes) :
    Partitions text ((make source rules file).tokenize text).1 where
  numbered i t found := by simpa [Cursor.start] using index_tokensFrom _ _ found
  first t found := start_head_tokensFrom _ (Cursor.start text) t found
  adjoining := adjoining_tokensFrom _ _
  ending := by
    have proper : ∀ rule ∈ (make source rules file).rules, 1 ≤ rule.symbol :=
      fun rule member => proper rule (mem_rules_make.mp member)
    exact tokensFrom_split (Cursor.At.start text) Token.Covers fun _ => covers_next proper
  placed := placed_tokensFrom _ (Cursor.Placed.start text)

/-- A single rule whose tokens go from one line to the next. -/
def brokenRules : List LexRule :=
  [⟨"BREAK", 2, some (.literal (.unplaced "x\ny")), true, false⟩]

theorem tokenize_partitions_broken :
    let tokens := ((make [] brokenRules "").tokenize "?x\ny?").1
    (∀ rule ∈ brokenRules, 1 ≤ rule.symbol) ∧
      tokens.map (fun t => (t.symbol, t.start, t.line, t.column)) =
        [(Symbol.invalid, 0, 1, 1), (2, 1, 1, 2), (Symbol.invalid, 4, 2, 2),
          (Symbol.endOfInput, 5, 2, 3)] ∧
      Partitions "?x\ny?" tokens :=
  ⟨by decide, by decide +kernel, tokenize_partitions [] brokenRules (by decide) "" "?x\ny?"⟩

end Lexer

end GrammarCompletion
