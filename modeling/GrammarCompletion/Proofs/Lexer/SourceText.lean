import GrammarCompletion.Grammar.Basic
import GrammarCompletion.Proofs.Completion.Survey
import GrammarCompletion.Proofs.Lexer.Tokens

/-!
# The texts of tokens

A token that a rule matches has the bytes it covers as its text. A byte that no rule matches is taken for a
code point, and the text of its token is the UTF-8 form of it. That is the byte itself below `0x80`, and two
other bytes from there on. So the texts of all tokens spell out the source unless one of those bytes is
left unmatched, and then they never do.
-/

namespace GrammarCompletion

/-- The UTF-8 form of a byte taken for a code point. -/
def Bytes.ofByte (b : UInt8) : Bytes :=
  if b < 0x80 then [b] else if b < 0xC0 then [0xC2, b] else [0xC3, b - 0x40]

theorem Bytes.ofCode_byte (b : UInt8) : Bytes.ofCode b.toNat = Bytes.ofByte b := by
  have all : ∀ n < 256, Bytes.ofCode n = Bytes.ofByte n.toUInt8 := by decide +kernel
  have small : b.toNat < 256 := b.toNat_lt
  rw [all _ small, Nat.toUInt8_eq, UInt8.ofNat_toNat]

theorem Bytes.length_ofByte {b : UInt8} (high : 0x80 ≤ b) : (Bytes.ofByte b).length = 2 := by
  rw [Bytes.ofByte, if_neg (UInt8.not_lt.mpr high)]
  split <;> rfl

namespace Lexer

variable {text : Bytes} {c : Cursor} {l : Lexer}

/-- What holds of the next token at every place of a text holds of all its tokens. -/
theorem forall_mem_tokensFrom (here : c.At text) (P : Token → Prop)
    (each : ∀ c : Cursor, c.At text → P (l.next c).1) : ∀ t ∈ (l.tokensFrom c).1, P t := by
  induction c using Cursor.induction l with
  | finish c empty =>
    rw [tokensFrom_of_eq_nil empty]
    simpa using each c here
  | step c more ih =>
    rw [tokensFrom_of_ne_nil more, List.forall_mem_cons]
    exact ⟨each c here, ih (l.at_next here)⟩

def Stray (l : Lexer) (text : Bytes) (t : Token) (b : UInt8) : Prop :=
  0x80 ≤ b ∧ t.slice text = [b] ∧ l.best? (text.drop t.start.toNat) = none

theorem Reads.le_length {n : Nat} {symbol : Symbol} {covered : Bytes} {channel : Int}
    (reads : l.Reads c n symbol covered channel) : n ≤ c.rest.length := by
  cases reads with
  | finish empty => exact Nat.zero_le _
  | stray front unmatched => simp [front]
  | matched more best =>
    obtain ⟨-, body, -, fits⟩ := best?_chosen best
    exact fits.within

theorem slice_next (l : Lexer) (here : c.At text) :
    (l.next c).1.slice text ++ (l.next c).2.rest = c.rest := by
  obtain ⟨n, symbol, covered, channel, reads, next⟩ := l.next_reads c
  rw [next, slice_tokenBetween here reads.le_length]
  show c.rest.take n ++ (c.advance n).rest = c.rest
  rw [Cursor.rest_advance, List.take_append_drop]

theorem flatMap_slice_tokensFrom (l : Lexer) (here : c.At text) :
    (l.tokensFrom c).1.flatMap (·.slice text) = c.rest := by
  induction c using Cursor.induction l with
  | finish c empty =>
    have covered := l.slice_next here
    rw [empty] at covered
    rw [tokensFrom_of_eq_nil empty, empty, List.flatMap_singleton, (List.append_eq_nil_iff.mp covered).1]
  | step c more ih =>
    rw [tokensFrom_of_ne_nil more, List.flatMap_cons, ih (l.at_next here), l.slice_next here]

/-- The text of the token is what it covers, unless it is a stray byte. -/
def Spelled (l : Lexer) (text : Bytes) (t : Token) : Prop :=
  (t.text = t.slice text ∧ ∀ b, ¬ l.Stray text t b) ∨
    ∃ b, l.Stray text t b ∧ t.symbol = Symbol.invalid ∧ t.text = Bytes.ofByte b

theorem spelled_next (l : Lexer) (here : c.At text) : l.Spelled text (l.next c).1 := by
  generalize this : (l.next c).1 = t
  obtain ⟨n, symbol, covered, channel, reads, next⟩ := l.next_reads c
  have token : t = tokenBetween c (c.advance n) symbol covered channel := by rw [← this, next]
  have slice : t.slice text = c.rest.take n := by rw [token, slice_tokenBetween here reads.le_length]
  have rest : text.drop t.start.toNat = c.rest := by
    rw [here.rest_eq, token]
    rfl
  have written : t.text = covered := by rw [token]; rfl
  cases reads with
  | finish empty =>
    refine .inl ⟨by rw [written, slice, empty]; rfl, fun b stray => ?_⟩
    have covers := stray.2.1
    rw [slice, empty] at covers
    cases covers
  | @stray b tail front unmatched =>
    have single : t.slice text = [b] := by rw [slice, front]; rfl
    rw [Bytes.ofCode_byte] at written
    by_cases low : b < 0x80
    · refine .inl ⟨by rw [written, single, Bytes.ofByte, if_pos low], fun b' stray => ?_⟩
      have same : [b] = [b'] := single.symm.trans stray.2.1
      cases same
      exact absurd low (UInt8.not_lt.mpr stray.1)
    · refine .inr ⟨b, ⟨UInt8.not_lt.mp low, single, by rw [rest, unmatched]⟩, ?_, written⟩
      rw [token]
      rfl
  | matched more best =>
    refine .inl ⟨by rw [written, slice], fun b stray => ?_⟩
    have unmatched := stray.2.2
    rw [rest, best] at unmatched
    cases unmatched

theorem Stray.unique {t : Token} {b b' : UInt8} (h : l.Stray text t b) (h' : l.Stray text t b') : b = b' :=
  List.singleton_inj.mp (h.2.1.symm.trans h'.2.1)

theorem Spelled.eq_or_longer {t : Token} (h : l.Spelled text t) :
    t.text = t.slice text ∨ (t.slice text).length < t.text.length := by
  rcases h with ⟨same, -⟩ | ⟨b, stray, -, written⟩
  · exact .inl same
  · right
    rw [written, Bytes.length_ofByte stray.1, stray.2.1]
    exact Nat.one_lt_two

theorem Spelled.text_eq_slice_iff {t : Token} (h : l.Spelled text t) :
    t.text = t.slice text ↔ ¬ ∃ b, l.Stray text t b := by
  rcases h with ⟨same, none⟩ | ⟨b, stray, -, written⟩
  · exact iff_of_true same (not_exists.mpr none)
  · refine iff_of_false (fun same => ?_) fun none => none ⟨b, stray⟩
    have lengths := congrArg List.length same
    rw [written, Bytes.length_ofByte stray.1, stray.2.1] at lengths
    cases lengths

/-- Texts that are what the tokens cover, or longer, have the length of the source only if none is
longer. -/
theorem text_eq_slice_of_length {tokens : List Token}
    (each : ∀ t ∈ tokens, t.text = t.slice text ∨ (t.slice text).length < t.text.length) :
    (tokens.flatMap (·.slice text)).length ≤ (tokens.flatMap (·.text)).length ∧
      ((tokens.flatMap (·.text)).length = (tokens.flatMap (·.slice text)).length →
        ∀ t ∈ tokens, t.text = t.slice text) := by
  induction tokens with
  | nil => simp
  | cons t tokens ih =>
    rw [List.forall_mem_cons] at each
    have rest := ih each.2
    simp only [List.flatMap_cons, List.length_append, List.forall_mem_cons]
    rcases each.1 with same | longer
    · rw [same]
      exact ⟨by omega, fun total => ⟨rfl, rest.2 (by omega)⟩⟩
    · exact ⟨by omega, fun total => by omega⟩

/-- The text of a token is the part of the source that it covers, unless the token is a byte from `0x80` on
that no rule matches; the text of such a byte is two other bytes. All texts together spell out the source
if and only if there is no such byte. -/
theorem texts_spell_source_iff (source : Ebnf.Source) (rules : List LexRule) (file text : Bytes) :
    let l := make source rules file
    let tokens := (l.tokenize text).1
    (∀ t ∈ tokens, t.text = t.slice text ↔ ¬ ∃ b, l.Stray text t b) ∧
    (∀ t ∈ tokens, ∀ b, l.Stray text t b → t.symbol = Symbol.invalid ∧
      t.text = if b < 0xC0 then [0xC2, b] else [0xC3, b - 0x40]) ∧
    tokens.flatMap (·.slice text) = text ∧
    (tokens.flatMap (·.text) = text ↔ ∀ t ∈ tokens, ¬ ∃ b, l.Stray text t b) := by
  intro l tokens
  have spelled : ∀ t ∈ tokens, l.Spelled text t :=
    forall_mem_tokensFrom (Cursor.At.start text) _ fun _ here => l.spelled_next here
  have faithful : ∀ t ∈ tokens, t.text = t.slice text ↔ ¬ ∃ b, l.Stray text t b :=
    fun t member => (spelled t member).text_eq_slice_iff
  have covered : tokens.flatMap (·.slice text) = text :=
    l.flatMap_slice_tokensFrom (Cursor.At.start text)
  refine ⟨faithful, fun t member b stray => ?_, covered, fun whole t member => ?_, fun none => ?_⟩
  · rcases spelled t member with ⟨-, none⟩ | ⟨b', stray', symbol, written⟩
    · exact absurd stray (none b)
    · rw [← stray.unique stray', Bytes.ofByte, if_neg (UInt8.not_lt.mpr stray.1)] at written
      exact ⟨symbol, written⟩
  · have lengths := text_eq_slice_of_length fun t member => (spelled t member).eq_or_longer
    have total : (tokens.flatMap (·.text)).length = (tokens.flatMap (·.slice text)).length := by
      rw [whole, covered]
    exact (faithful t member).mp (lengths.2 total t member)
  · have same : tokens.map (·.text) = tokens.map (·.slice text) :=
      List.map_congr_left fun t member => (faithful t member).mpr (none t member)
    rw [List.flatMap_def, same, ← List.flatMap_def, covered]

end Lexer

namespace Grammar

/-- A byte that no rule of an accepted grammar matches has two other bytes as its text. -/
theorem stray_byte_is_respelled :
    ∃ g, parse "g" "Start = \"a\" ." "Start" [] = .ok g ∧
      ∃ t ∈ ((g.lexer "").tokenize [0xFF]).1, t.symbol = Symbol.invalid ∧
        t.slice [0xFF] = [0xFF] ∧ t.text = [0xC3, 0xBF] ∧
        ((g.lexer "").tokenize [0xFF]).1.flatMap (·.text) ≠ [0xFF] := by
  let stray : Token := ⟨0, Symbol.invalid, [0xC3, 0xBF], Token.defaultChannel, 0, 1, 1, 1⟩
  let last : Token := ⟨1, Symbol.endOfInput, [], Token.defaultChannel, 1, 1, 1, 2⟩
  have answered : (parse "g" "Start = \"a\" ." "Start" []).toOption.map
      (fun g => ((g.lexer "").tokenize [0xFF]).1) = some [stray, last] := by decide +kernel
  obtain ⟨g, parsed, tokens⟩ := exists_ok_of_toOption answered
  refine ⟨g, parsed, stray, ?_, rfl, rfl, rfl, ?_⟩
  · rw [tokens]
    exact List.mem_cons_self
  · rw [tokens]
    decide

end Grammar

end GrammarCompletion
