import GrammarCompletion.Lexer.Basic

/-!
# Cursors in a text

A lexer that starts at the front of a text always stands somewhere in that text, and the tokens it
returns cover what lies between two places where it stood.
-/

namespace GrammarCompletion

def Token.slice (text : Bytes) (t : Token) : Bytes :=
  (text.drop t.start.toNat).take (t.stop.toNat - t.start.toNat)

namespace Lexer

namespace Cursor

structure At (text : Bytes) (c : Cursor) : Prop where
  within : c.offset ≤ text.length
  rest_eq : c.rest = text.drop c.offset

theorem At.start (text : Bytes) : At text (Cursor.start text) :=
  ⟨Nat.zero_le _, rfl⟩

@[simp] theorem index_advance (n : Nat) (c : Cursor) : (c.advance n).index = c.index := by
  induction n generalizing c with
  | zero => simp [advance]
  | succ n ih =>
    unfold advance
    split
    · rfl
    · split <;> simp [ih]

theorem offset_advance (n : Nat) (c : Cursor) :
    (c.advance n).offset = c.offset + min n c.rest.length := by
  induction n generalizing c with
  | zero => simp [advance]
  | succ n ih =>
    unfold advance
    split
    · next empty => simp [empty]
    · next b rest more =>
      split <;> simp only [ih, more, List.length_cons] <;> omega

variable {text : Bytes} {c : Cursor}

theorem At.length_rest (here : c.At text) : c.rest.length = text.length - c.offset := by
  rw [here.rest_eq, List.length_drop]

theorem At.rest_eq_nil_iff (here : c.At text) : c.rest = [] ↔ c.offset = text.length := by
  rw [← List.length_eq_zero_iff, here.length_rest]
  have := here.within
  omega

theorem At.advance (here : c.At text) (n : Nat) : (c.advance n).At text := by
  have length := here.length_rest
  have within := here.within
  constructor
  · rw [offset_advance]
    omega
  · rw [rest_advance, offset_advance, here.rest_eq, List.drop_drop, ← here.rest_eq, length]
    -- past the end there is nothing left to drop
    by_cases inside : n ≤ text.length - c.offset
    · rw [Nat.min_eq_left inside]
    · rw [List.drop_eq_nil_of_le (by omega), List.drop_eq_nil_of_le (by omega)]

end Cursor

/-! ## One step -/

/-- What the next token can be: how many bytes it takes, its type, its text and its channel. -/
inductive Reads (l : Lexer) (c : Cursor) : Nat → Symbol → Bytes → Int → Prop
  /-- Nothing is left. -/
  | finish (empty : c.rest = []) : Reads l c 0 Symbol.endOfInput [] Token.defaultChannel
  /-- No rule matches. -/
  | stray {b : UInt8} {rest : Bytes} (front : c.rest = b :: rest) (unmatched : l.best? c.rest = none) :
    Reads l c 1 Symbol.invalid (Bytes.ofCode b.toNat) Token.defaultChannel
  /-- The best rule matches. -/
  | matched {rule : LexRule} {n : Nat} (more : c.rest ≠ []) (best : l.best? c.rest = some (rule, n)) :
    Reads l c n rule.symbol (c.rest.take n)
      (if rule.isHidden then Token.hiddenChannel else Token.defaultChannel)

theorem next_reads (l : Lexer) (c : Cursor) :
    ∃ n symbol text channel, l.Reads c n symbol text channel ∧
      l.next c = (tokenBetween c (c.advance n) symbol text channel,
        { c.advance n with index := c.index + 1 }) := by
  unfold next
  split
  · next empty => exact ⟨_, _, _, _, .finish empty, rfl⟩
  · next b rest front =>
    split
    · next unmatched => exact ⟨_, _, _, _, .stray front unmatched, rfl⟩
    · next rule n best =>
      exact ⟨_, _, _, _, .matched (by simp [front]) best, rfl⟩

def after (l : Lexer) : Nat → Cursor → Cursor
  | 0, c => c
  | calls + 1, c => l.after calls (l.next c).2

variable {text : Bytes} {c : Cursor}

theorem at_next (l : Lexer) (here : c.At text) : (l.next c).2.At text := by
  obtain ⟨n, symbol, covered, channel, -, next⟩ := l.next_reads c
  have moved := here.advance n
  rw [next]
  exact ⟨moved.within, moved.rest_eq⟩

theorem at_after (l : Lexer) (calls : Nat) (here : c.At text) : (l.after calls c).At text := by
  induction calls generalizing c with
  | zero => exact here
  | succ calls ih => exact ih (l.at_next here)

/-- A token that takes `n` bytes covers the first `n` bytes of what is left. -/
theorem slice_tokenBetween (here : c.At text) {n : Nat} (enough : n ≤ c.rest.length)
    (symbol : Symbol) (covered : Bytes) (channel : Int) :
    (tokenBetween c (c.advance n) symbol covered channel).slice text = c.rest.take n := by
  simp only [tokenBetween, Token.slice, Cursor.offset_advance, Int.toNat_natCast,
    Nat.add_sub_cancel_left, ← here.rest_eq, Nat.min_eq_left enough]

end Lexer

end GrammarCompletion
