import GrammarCompletion.Proofs.Lexer.Derivation

/-!
# The tokens of a text

All tokens of a text are numbered from zero, end one behind the other, and the last one is the only
end of input.
-/

namespace GrammarCompletion

structure Token.Finishes (text : Bytes) (t : Token) : Prop where
  symbol_eq : t.symbol = Symbol.endOfInput
  visible : t.isVisible = true
  start_eq : t.start = (text.length : Int)
  stop_eq : t.stop = (text.length : Int)

structure Tokenized (text : Bytes) (tokens : List Token) : Prop where
  index_eq : ∀ (i : Nat) (t : Token), tokens[i]? = some t → t.index = i
  stops : tokens.Pairwise fun t u => t.stop ≤ u.stop
  ending : ∃ front last, tokens = front ++ [last] ∧ last.isEnd = true ∧ last.isVisible = true ∧
    last.stop = (text.length : Int) ∧ ∀ t ∈ front, t.isEnd = false

namespace Lexer

variable {text : Bytes} {c : Cursor}

/-- Induction along the tokens from a cursor on. -/
@[elab_as_elim] theorem Cursor.induction (l : Lexer) {motive : Cursor → Prop}
    (finish : ∀ c, c.rest = [] → motive c)
    (step : ∀ c, c.rest ≠ [] → motive (l.next c).2 → motive c) (c : Cursor) : motive c :=
  tokensFrom.induct l motive (fun c more _ _ _ => step c more)
    (fun c empty => finish c (by simpa using empty)) c

theorem tokensFrom_of_eq_nil {l : Lexer} (empty : c.rest = []) :
    (l.tokensFrom c).1 = [(l.next c).1] := by
  rw [tokensFrom, dif_neg (by simp [empty])]

theorem tokensFrom_of_ne_nil {l : Lexer} (more : c.rest ≠ []) :
    (l.tokensFrom c).1 = (l.next c).1 :: (l.tokensFrom (l.next c).2).1 := by
  rw [tokensFrom, dif_pos more]

theorem index_next (l : Lexer) (c : Cursor) :
    (l.next c).1.index = c.index ∧ (l.next c).2.index = c.index + 1 := by
  obtain ⟨n, symbol, covered, channel, -, next⟩ := l.next_reads c
  rw [next]
  exact ⟨rfl, rfl⟩

theorem stop_next (l : Lexer) (c : Cursor) :
    (l.next c).1.stop = (l.next c).2.offset ∧ c.offset ≤ (l.next c).2.offset := by
  obtain ⟨n, symbol, covered, channel, -, next⟩ := l.next_reads c
  rw [next]
  simp [tokenBetween, Cursor.offset_advance]

/-- Where something is left, the next token does not end the input, unless a rule has that type. -/
theorem isEnd_next {l : Lexer} (proper : ∀ rule ∈ l.rules, rule.symbol ≠ Symbol.endOfInput)
    (more : c.rest ≠ []) : (l.next c).1.isEnd = false := by
  obtain ⟨n, symbol, covered, channel, reads, next⟩ := l.next_reads c
  rw [next]
  cases reads with
  | finish empty => exact absurd empty more
  | stray front unmatched => rfl
  | matched more best => simpa [tokenBetween, Token.isEnd] using proper _ (best?_chosen best).1

theorem index_tokensFrom (l : Lexer) (c : Cursor) {i : Nat} {t : Token}
    (found : (l.tokensFrom c).1[i]? = some t) : t.index = c.index + i := by
  induction c using Cursor.induction l generalizing i with
  | finish c empty =>
    rw [tokensFrom_of_eq_nil empty, List.getElem?_singleton] at found
    obtain ⟨rfl, rfl⟩ : i = 0 ∧ (l.next c).1 = t := by simpa using found
    simpa using (l.index_next c).1
  | step c more ih =>
    rw [tokensFrom_of_ne_nil more] at found
    cases i with
    | zero =>
      obtain rfl : (l.next c).1 = t := by simpa using found
      simpa using (l.index_next c).1
    | succ i =>
      have later := ih (by simpa using found)
      rw [later, (l.index_next c).2]
      omega

theorem stops_tokensFrom (l : Lexer) (c : Cursor) :
    (∀ t ∈ (l.tokensFrom c).1, (c.offset : Int) ≤ t.stop) ∧
      (l.tokensFrom c).1.Pairwise fun t u => t.stop ≤ u.stop := by
  induction c using Cursor.induction l with
  | finish c empty =>
    have stop := l.stop_next c
    rw [tokensFrom_of_eq_nil empty]
    simp only [List.mem_singleton, forall_eq, List.pairwise_singleton, and_true]
    omega
  | step c more ih =>
    have stop := l.stop_next c
    rw [tokensFrom_of_ne_nil more, List.pairwise_cons, List.forall_mem_cons]
    refine ⟨⟨by omega, fun t member => ?_⟩, fun t member => ?_, ih.2⟩
    · have := ih.1 t member
      omega
    · have := ih.1 t member
      omega

theorem finishes_next {l : Lexer} (here : c.At text) (empty : c.rest = []) :
    (l.next c).1.Finishes text := by
  have offset : c.offset = text.length := here.rest_eq_nil_iff.mp empty
  unfold next
  rw [empty]
  exact ⟨rfl, rfl, by simp [tokenBetween, offset], by simp [tokenBetween, offset]⟩

/-- What holds of the next token at every place with something left holds of all tokens but the last
one. -/
theorem tokensFrom_split {l : Lexer} (here : c.At text) (Inner : Token → Prop)
    (inner : ∀ c : Cursor, c.rest ≠ [] → Inner (l.next c).1) :
    ∃ front last, (l.tokensFrom c).1 = front ++ [last] ∧ last.Finishes text ∧
      ∀ t ∈ front, Inner t := by
  induction c using Cursor.induction l with
  | finish c empty =>
    exact ⟨[], (l.next c).1, tokensFrom_of_eq_nil empty, finishes_next here empty, by simp⟩
  | step c more ih =>
    obtain ⟨front, last, tokens, finishes, others⟩ := ih (l.at_next here)
    refine ⟨(l.next c).1 :: front, last, ?_, finishes, ?_⟩
    · rw [tokensFrom_of_ne_nil more, tokens]
      rfl
    · rw [List.forall_mem_cons]
      exact ⟨inner c more, others⟩

theorem tokensFrom_ending {l : Lexer} (proper : ∀ rule ∈ l.rules, rule.symbol ≠ Symbol.endOfInput)
    (here : c.At text) :
    ∃ front last, (l.tokensFrom c).1 = front ++ [last] ∧ last.isEnd = true ∧
      last.isVisible = true ∧ last.stop = (text.length : Int) ∧ ∀ t ∈ front, t.isEnd = false := by
  obtain ⟨front, last, tokens, finishes, others⟩ := tokensFrom_split here (·.isEnd = false)
    fun _ => isEnd_next proper
  exact ⟨front, last, tokens, by simp [Token.isEnd, finishes.symbol_eq], finishes.visible,
    finishes.stop_eq, others⟩

theorem tokenized {l : Lexer} (proper : ∀ rule ∈ l.rules, rule.symbol ≠ Symbol.endOfInput)
    (text : Bytes) : Tokenized text (l.tokenize text).1 where
  index_eq i t found := by simpa [Cursor.start] using l.index_tokensFrom _ found
  stops := (l.stops_tokensFrom _).2
  ending := tokensFrom_ending proper (Cursor.At.start text)

end Lexer

end GrammarCompletion
