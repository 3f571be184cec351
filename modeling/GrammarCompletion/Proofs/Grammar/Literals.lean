import GrammarCompletion.Proofs.Grammar.Parsed
import GrammarCompletion.Proofs.Lexer.Tokens
import GrammarCompletion.Proofs.Text.Quoted

/-!
# Texts of token types

Some token types stand for a fixed text of the grammar: a token production that is this text alone, or
a text in a parser rule. The vocabulary gives that text back, byte for byte, and if it is lexed alone,
it is one token of the least type that stands for it.
-/

namespace GrammarCompletion

open Ebnf

/-! ## Types in the order of the source -/

namespace Ebnf

def Production.text? (p : Production) : Option Bytes :=
  match p.body with
  | some (.literal text) => some text.text
  | _ => none

namespace Source

/-- The texts in parser rules that are no token production, each where it first appears. -/
def looseTexts (source : Source) : List Bytes :=
  (((source.ofKind .rule).flatMap fun p => (p.body.map Expr.literals).getD []).filter fun text =>
    !(source.ofKind .token).any fun p => p.text? == some text).eraseDups

/-- The token type stands for the text. Token productions have the first types, loose texts those
behind them. -/
inductive StandsFor (source : Source) : Symbol → Bytes → Prop
  | production {i : Nat} {p : Production} {text : Bytes}
      (declared : (source.ofKind .token)[i]? = some p) (whole : p.text? = some text) :
      StandsFor source (TokenTable.symbolAt i) text
  | loose {i : Nat} {text : Bytes} (listed : source.looseTexts[i]? = some text) :
      StandsFor source (TokenTable.symbolAt ((source.ofKind .token).length + i)) text

theorem nodup_eraseDups : ∀ texts : List Bytes, texts.eraseDups.Nodup
  | [] => List.nodup_nil
  | text :: texts => by
    rw [List.eraseDups_cons, List.nodup_cons, List.mem_eraseDups]
    exact ⟨by simp, nodup_eraseDups _⟩
termination_by texts => texts.length
decreasing_by exact Nat.lt_succ_of_le (List.length_filter_le _ _)

theorem nodup_looseTexts (source : Source) : source.looseTexts.Nodup := nodup_eraseDups _

/-- Types of one text differ only if a token production has it. -/
theorem StandsFor.eq_of_loose {source : Source} {i : Nat} {t : Symbol} {text : Bytes}
    (listed : source.looseTexts[i]? = some text) (stands : source.StandsFor t text) :
    t = TokenTable.symbolAt ((source.ofKind .token).length + i) := by
  cases stands with
  | production declared whole =>
    have unnamed := List.mem_eraseDups.mp (List.mem_of_getElem? listed)
    rw [List.mem_filter, Bool.not_eq_true', List.any_eq_false] at unnamed
    exact absurd (by simpa using whole) (unnamed.2 _ (List.mem_of_getElem? declared))
  | @loose j _ listed' =>
    have inside := (List.getElem?_eq_some_iff.mp listed).1
    rw [(List.getElem?_inj inside (nodup_looseTexts source)).mp (listed.trans listed'.symm)]

/-- The least type of a text is any given one, unless an earlier token production is the text. -/
theorem StandsFor.least_eq_iff {source : Source} {least t : Symbol} {text : Bytes}
    (own : source.StandsFor least text) (below : ∀ u, source.StandsFor u text → least ≤ u)
    (stands : source.StandsFor t text) :
    least = t ↔ ¬ ∃ i p, (source.ofKind .token)[i]? = some p ∧ p.text? = some text ∧
      TokenTable.symbolAt i < t := by
  constructor
  · rintro rfl ⟨i, p, declared, whole, earlier⟩
    exact Int64.not_lt.mpr (below _ (.production declared whole)) earlier
  · intro unnamed
    cases own with
    | production declared whole =>
      refine Decidable.byContradiction fun differs => unnamed ⟨_, _, declared, whole, ?_⟩
      exact Int64.lt_of_le_of_ne (below t stands) differs
    | loose listed => exact (stands.eq_of_loose listed).symm

end Source

end Ebnf

namespace TokenTable

theorem isSome_literalSymbol? (table : TokenTable) (text : Bytes) :
    (table.literalSymbol? text).isSome = table.entries.any fun e => e.literal == some text := by
  rw [literalSymbol?, Option.isSome_map, List.findIdx?_isSome]

/-- Texts without a type get one behind the others, where they first appear. -/
theorem entries_foldl_addLiteral (texts : List Bytes) (table : TokenTable) :
    (texts.foldl addLiteral table).entries = table.entries ++
      ((texts.filter fun text => !table.entries.any fun e => e.literal == some text).eraseDups.map
        TokenEntry.ofLiteral) := by
  induction texts generalizing table with
  | nil => simp
  | cons text texts ih =>
    rw [List.foldl_cons, ih, addLiteral, isSome_literalSymbol?]
    cases known : table.entries.any fun e => e.literal == some text with
    | true => simp [known]
    | false =>
      simp only [Bool.false_eq_true, if_false, List.filter_cons, known, Bool.not_false, if_true,
        List.eraseDups_cons, List.map_cons, List.append_assoc, List.singleton_append,
        List.filter_filter, List.any_append, List.any_cons, List.any_nil, TokenEntry.ofLiteral]
      congr 5
      funext other
      cases table.entries.any fun e => e.literal == some other with
      | true => simp
      | false =>
        simp only [Option.some_beq_some, Bool.or_false, Bool.false_or, Bool.not_false, Bool.and_true]
        rw [BEq.comm]

theorem entries_ofSource (source : Source) (skip : List Bytes) :
    (ofSource source skip).entries =
      (source.ofKind .token).map (TokenEntry.ofProduction skip) ++
        source.looseTexts.map TokenEntry.ofLiteral := by
  rw [ofSource, entries_foldl_addLiteral]
  simp only [List.any_map]
  rfl

theorem entry_of_production {source : Source} (skip : List Bytes) {i : Nat} {p : Production}
    (declared : (source.ofKind .token)[i]? = some p) :
    (ofSource source skip).entries[i]? = some (.ofProduction skip p) := by
  have inside : i < (source.ofKind .token).length := (List.getElem?_eq_some_iff.mp declared).1
  rw [entries_ofSource, List.getElem?_append_left (by simpa using inside), List.getElem?_map,
    declared]
  rfl

theorem cases_of_entry {source : Source} {skip : List Bytes} {i : Nat} {e : TokenEntry}
    (found : (ofSource source skip).entries[i]? = some e) :
    (∃ p, (source.ofKind .token)[i]? = some p ∧ e = .ofProduction skip p) ∨
      ∃ k text, i = (source.ofKind .token).length + k ∧ source.looseTexts[k]? = some text ∧
        e = .ofLiteral text := by
  rw [entries_ofSource] at found
  by_cases inside : i < (source.ofKind .token).length
  · rw [List.getElem?_append_left (by simpa using inside), List.getElem?_map] at found
    obtain ⟨p, declared, rfl⟩ := Option.map_eq_some_iff.mp found
    exact .inl ⟨p, declared, rfl⟩
  · rw [List.getElem?_append_right (by simpa using inside), List.length_map,
      List.getElem?_map] at found
    obtain ⟨text, listed, rfl⟩ := Option.map_eq_some_iff.mp found
    exact .inr ⟨_, text, by omega, listed, rfl⟩

theorem body_of_literal {source : Source} {skip : List Bytes} {e : TokenEntry} {text : Bytes}
    (member : e ∈ (ofSource source skip).entries) (literal : e.literal = some text) :
    ∃ spelled : Located, e.body = some (.literal spelled) ∧ spelled.text = text := by
  rw [entries_ofSource, List.mem_append, List.mem_map, List.mem_map] at member
  rcases member with ⟨p, -, rfl⟩ | ⟨other, -, rfl⟩
  · have whole : p.text? = some text := literal
    unfold Production.text? at whole
    split at whole
    · next spelled body =>
      cases whole
      exact ⟨spelled, body, rfl⟩
    · cases whole
  · cases literal
    exact ⟨_, rfl, rfl⟩

/-- The token types that stand for a text are those of the entries with the text. -/
theorem standsFor_iff {source : Source} (skip : List Bytes) {t : Symbol} {text : Bytes} :
    source.StandsFor t text ↔ ∃ i e, (ofSource source skip).entries[i]? = some e ∧
      e.literal = some text ∧ t = symbolAt i := by
  constructor
  · intro stands
    cases stands with
    | @production i p _ declared whole =>
      exact ⟨i, TokenEntry.ofProduction skip p, entry_of_production skip declared, whole, rfl⟩
    | @loose i _ listed =>
      refine ⟨_, TokenEntry.ofLiteral text, ?_, rfl, rfl⟩
      rw [entries_ofSource, List.getElem?_append_right (by simp), List.length_map, Nat.add_sub_cancel_left,
        List.getElem?_map, listed]
      rfl
  · rintro ⟨i, e, found, literal, rfl⟩
    rcases cases_of_entry found with ⟨p, declared, rfl⟩ | ⟨k, other, rfl, listed, rfl⟩
    · exact .production declared literal
    · cases literal
      exact .loose listed

/-! ## The vocabulary -/

theorem literalText?_literalName (e : TokenEntry) :
    Vocabulary.literalText? e.literalName = e.literal := by
  unfold TokenEntry.literalName
  cases e.literal with
  | none => rfl
  | some text => exact Vocabulary.literalText?_literalName text

theorem literal?_vocabulary_iff {table : TokenTable} (small : table.entries.length + 1 < 2 ^ 63)
    {t : Symbol} {text : Bytes} :
    table.vocabulary.literal? t = some text ↔
      ∃ i e, table.entries[i]? = some e ∧ e.literal = some text ∧ t = symbolAt i := by
  have zero : (0 : Symbol).toInt = 0 := by decide
  have value : ∀ i e, table.entries[i]? = some e → (symbolAt i).toInt = i + 1 := fun i e found =>
    toInt_symbolAt (List.getElem?_eq_some_iff.mp found).1 small
  unfold Vocabulary.literal?
  split
  · next negative =>
    rw [Int64.lt_iff_toInt_lt, zero] at negative
    constructor
    · nofun
    · rintro ⟨i, e, found, -, rfl⟩
      have := value i e found
      omega
  · next nonnegative =>
    rw [Int64.lt_iff_toInt_lt, zero] at nonnegative
    cases place : t.toInt.toNat with
    | zero =>
      constructor
      · nofun
      · rintro ⟨i, e, found, -, rfl⟩
        have := value i e found
        omega
    | succ i =>
      have name : table.vocabulary.literalNames[i + 1]? =
          table.entries[i]?.map TokenEntry.literalName := by
        simp [vocabulary]
      rw [name]
      constructor
      · cases found : table.entries[i]? with
        | none => nofun
        | some e =>
          intro named
          refine ⟨i, e, found, (literalText?_literalName e).symm.trans named, ?_⟩
          rw [← Int64.toInt_inj, value i e found]
          omega
      · rintro ⟨j, e, found, literal, rfl⟩
        have := value j e found
        obtain rfl : j = i := by omega
        rw [found]
        exact (literalText?_literalName e).trans literal

end TokenTable

/-! ## Lexing a text -/

/-- The rule matches the text and nothing else. -/
def LexRule.Spells (rule : LexRule) (text : Bytes) : Prop :=
  ∃ spelled : Located, rule.body = some (.literal spelled) ∧ spelled.text = text

namespace Lexer

variable {source : Source} {memo : Memo} {text : Bytes}

theorem literalLength_self (text : Bytes) : literalLength text text = text.length :=
  if_pos (List.isPrefixOf_iff_prefix.mpr (List.prefix_refl text))

theorem literalLength_lt {other : Bytes} (differs : other ≠ text) (nonempty : text ≠ []) :
    literalLength other text < text.length := by
  unfold literalLength
  split
  · next front =>
    have isPrefix := List.isPrefixOf_iff_prefix.mp front
    by_cases whole : other.length = text.length
    · exact absurd (isPrefix.eq_of_length whole) differs
    · have := isPrefix.length_le
      omega
  · exact List.length_pos_iff.mpr nonempty

/-- No later rule replaces one that matches the whole text. -/
theorem bestOf_of_full {best : LexRule × Nat} (rules : List LexRule)
    (sound : memo.Sound source text) (full : best.2 = text.length) :
    bestOf source ⟨0, text⟩ rules memo (some best) = some best := by
  induction rules generalizing memo with
  | nil => rfl
  | cons rule rules ih =>
    unfold bestOf
    split
    · exact ih sound
    · next body _ =>
      have correct := matchExpr_correct source text [] body ⟨0, text⟩ memo rfl sound
      have within := correct.1.within
      dsimp only
      rw [if_neg (by simpa [full] using within)]
      exact ih correct.2

/-- The first rule for the whole text is the best one. -/
theorem bestOf_of_spells {front back : List LexRule} {rule : LexRule}
    {best : Option (LexRule × Nat)} (nonempty : text ≠ [])
    (others : ∀ r ∈ front, ∃ other, r.Spells other ∧ other ≠ text) (spells : rule.Spells text)
    (sound : memo.Sound source text) (shorter : (best.map Prod.snd).getD 0 < text.length) :
    bestOf source ⟨0, text⟩ (front ++ rule :: back) memo best = some (rule, text.length) := by
  induction front generalizing best with
  | nil =>
    obtain ⟨spelled, body, rfl⟩ := spells
    rw [List.nil_append, bestOf, body]
    simp only [matchExpr, literalLength_self]
    rw [if_pos shorter]
    exact bestOf_of_full back sound rfl
  | cons r front ih =>
    rw [List.forall_mem_cons] at others
    obtain ⟨⟨other, ⟨spelled, body, rfl⟩, differs⟩, others⟩ := others
    rw [List.cons_append, bestOf, body]
    simp only [matchExpr]
    split
    · exact ih others (literalLength_lt differs nonempty)
    · exact ih others shorter

/-- A text that some rule matches whole is a single token. -/
theorem tokenize_of_best {l : Lexer} {rule : LexRule} (nonempty : text ≠ [])
    (best : l.best? text = some (rule, text.length)) :
    ∃ token last, (l.tokenize text).1 = [token, last] ∧ token.symbol = rule.symbol ∧
      token.start = 0 ∧ token.stop = (text.length : Int) ∧ token.text = text ∧
      last.Finishes text := by
  have here := Cursor.At.start text
  have more : (Cursor.start text).rest ≠ [] := nonempty
  obtain ⟨n, symbol, covered, channel, reads, next⟩ := l.next_reads (Cursor.start text)
  cases reads with
  | finish empty => exact absurd empty more
  | stray _ unmatched => cases unmatched.symm.trans best
  | matched _ found =>
    cases found.symm.trans best
    have done : (l.next (Cursor.start text)).2.rest = [] := by
      rw [next]
      simp [Cursor.rest_advance, Cursor.start]
    refine ⟨(l.next (Cursor.start text)).1, (l.next (l.next (Cursor.start text)).2).1, ?_, ?_, ?_, ?_,
      ?_, finishes_next (l.at_next here) done⟩
    · rw [tokenize, tokensFrom_of_ne_nil more, tokensFrom_of_eq_nil done]
    · rw [next]
      rfl
    · rw [next]
      rfl
    · rw [next]
      simp [tokenBetween, Cursor.offset_advance, Cursor.start]
    · rw [next]
      simp [tokenBetween, Cursor.start]

end Lexer

namespace TokenTable

variable {source : Source} {skip : List Bytes} {before after : List TokenEntry} {e : TokenEntry}
  {text : Bytes}

structure FirstWith (entries before : List TokenEntry) (e : TokenEntry) (text : Bytes) : Prop where
  split : ∃ after, entries = before ++ e :: after
  literal : e.literal = some text
  others : ∀ d ∈ before, d.literal ≠ some text

theorem exists_firstWith {entries : List TokenEntry} (member : e ∈ entries)
    (literal : e.literal = some text) : ∃ before d, FirstWith entries before d text := by
  have found : (entries.find? fun d => d.literal == some text).isSome := by
    rw [List.find?_isSome]
    exact ⟨e, member, by simpa using literal⟩
  obtain ⟨d, found⟩ := Option.isSome_iff_exists.mp found
  obtain ⟨same, before, after, split, others⟩ := List.find?_eq_some_iff_append.mp found
  exact ⟨before, d, ⟨after, split⟩, by simpa using same, fun d member => by simpa using others d member⟩

/-- Literal rules come first and keep their order, so the rules in front of that of a text match other
texts. -/
theorem rules_of_firstWith (file : Bytes)
    (first : FirstWith (ofSource source skip).entries before e text) :
    ∃ front back, (Lexer.make source (ofSource source skip).lexRules file).rules =
        front ++ e.lexRule (symbolAt before.length) :: back ∧
      ∀ r ∈ front, ∃ other, r.Spells other ∧ other ≠ text := by
  obtain ⟨⟨after, split⟩, literal, others⟩ := first
  have isLiteral : (e.lexRule (symbolAt before.length)).isLiteral = true := by
    simp [TokenEntry.lexRule, literal]
  have literals : (ofSource source skip).lexRules.filter (·.isLiteral) =
      (before.mapIdx fun i d => d.lexRule (symbolAt i)).filter (·.isLiteral) ++
        e.lexRule (symbolAt before.length) ::
          (after.mapIdx fun i d => d.lexRule (symbolAt (i + 1 + before.length))).filter
            (·.isLiteral) := by
    rw [lexRules, split, List.mapIdx_append, List.mapIdx_cons, List.filter_append, Nat.zero_add,
      List.filter_cons_of_pos isLiteral]
  refine ⟨_, _, by rw [Lexer.make, literals, List.append_assoc, List.cons_append], ?_⟩
  intro r member
  rw [List.mem_filter, List.mem_mapIdx] at member
  obtain ⟨⟨i, inside, rfl⟩, isLiteral⟩ := member
  have known : before[i] ∈ before := List.getElem_mem inside
  obtain ⟨other, same⟩ := Option.isSome_iff_exists.mp isLiteral
  have listed : before[i] ∈ (ofSource source skip).entries := by
    rw [split]
    exact List.mem_append_left _ known
  refine ⟨other, body_of_literal listed same, ?_⟩
  rintro rfl
  exact others _ known same

/-- The type of the first entry with a text is the least that stands for the text. -/
theorem symbolAt_le_of_firstWith (small : (ofSource source skip).entries.length + 1 < 2 ^ 63)
    (first : FirstWith (ofSource source skip).entries before e text) {u : Symbol}
    (stands : source.StandsFor u text) : symbolAt before.length ≤ u := by
  obtain ⟨j, d, found, literal, rfl⟩ := (standsFor_iff skip).mp stands
  obtain ⟨⟨after, split⟩, -, others⟩ := first
  have inside := (List.getElem?_eq_some_iff.mp found).1
  have behind : before.length ≤ j := by
    refine Nat.le_of_not_lt fun earlier => ?_
    rw [split, List.getElem?_append_left earlier] at found
    exact others d (List.mem_of_getElem? found) literal
  rw [Int64.le_iff_toInt_le, toInt_symbolAt inside small, toInt_symbolAt (by omega) small]
  omega

end TokenTable

namespace Grammar

variable {name source start : Bytes} {skip : List Bytes} {g : Grammar}

/-- The vocabulary has a text for exactly those types that stand for one, and it is that text. If it is
not empty, then lexed alone it is a single token, and the end of input follows. The type of the token
is the least that stands for the text: the one asked for, unless an earlier token production is the
same text. -/
theorem literal_lexes_to_least_type (parsed : parse name source start skip = .ok g)
    (small : source.length < 2 ^ 63) :
    (∀ t text, g.vocabulary.literal? t = some text ↔ g.source.StandsFor t text) ∧
    ∀ t text file, g.vocabulary.literal? t = some text → text ≠ [] →
      ∃ token last, ((g.lexer file).tokenize text).1 = [token, last] ∧
        token.start = 0 ∧ token.stop = (text.length : Int) ∧ token.text = text ∧
        last.Finishes text ∧
        g.source.StandsFor token.symbol text ∧
        (∀ u, g.source.StandsFor u text → token.symbol ≤ u) ∧
        (token.symbol = t ↔ ¬ ∃ i p, (g.source.ofKind .token)[i]? = some p ∧
          p.text? = some text ∧ TokenTable.symbolAt i < t) := by
  have few := length_entries_lt parsed small
  have table := (parse_ok parsed).2.1
  have vocabulary : ∀ t text, g.vocabulary.literal? t = some text ↔ g.source.StandsFor t text := by
    intro t text
    rw [Grammar.vocabulary, TokenTable.literal?_vocabulary_iff few, table,
      TokenTable.standsFor_iff skip]
  refine ⟨vocabulary, ?_⟩
  intro t text file named nonempty
  have stands := (vocabulary t text).mp named
  obtain ⟨k, d, found, literal, -⟩ := (TokenTable.standsFor_iff skip).mp stands
  obtain ⟨before, e, first⟩ := TokenTable.exists_firstWith (List.mem_of_getElem? found) literal
  obtain ⟨front, back, rules, others⟩ := TokenTable.rules_of_firstWith file first
  obtain ⟨after, split⟩ := first.split
  have place : (TokenTable.ofSource g.source skip).entries[before.length]? = some e := by
    simp [split]
  have best : (g.lexer file).best? text =
      some (e.lexRule (TokenTable.symbolAt before.length), text.length) := by
    rw [Lexer.best?, Lexer.bestAt?, lexer, table, rules]
    exact Lexer.bestOf_of_spells nonempty others
      (TokenTable.body_of_literal (List.mem_of_getElem? place) first.literal)
      (Lexer.Memo.sound_nil _ _) (List.length_pos_iff.mpr nonempty)
  obtain ⟨token, last, tokens, symbol, begin, stop, covered, finishes⟩ :=
    Lexer.tokenize_of_best nonempty best
  have own : g.source.StandsFor token.symbol text :=
    (TokenTable.standsFor_iff skip).mpr ⟨_, e, place, first.literal, symbol⟩
  have least : ∀ u, g.source.StandsFor u text → token.symbol ≤ u := by
    intro u other
    rw [symbol]
    exact TokenTable.symbolAt_le_of_firstWith (table ▸ few) first other
  exact ⟨token, last, tokens, begin, stop, covered, finishes, own, least,
    own.least_eq_iff least stands⟩

/-- Two tokens are a quote, a backslash, a stray byte and a line end; a plus stands in a rule. -/
def twins : Bytes :=
  "Twins = ONE \"+\" TWO . ONE = \"\\\"\\\\\\xff\\n\" . TWO = \"\\\"\\\\\\xff\\n\" ."

/-- The text of the second token is lexed as the first one. The plus is lexed as itself. -/
theorem literal_lexes_to_least_type_twins :
    ∃ g, parse "g" twins "Twins" [] = .ok g ∧
      (g.vocabulary.literal? 2 = some [0x22, 0x5C, 0xFF, 0x0A] ∧
        ∃ token last, ((g.lexer "").tokenize [0x22, 0x5C, 0xFF, 0x0A]).1 = [token, last] ∧
          token.symbol ≤ 1 ∧ token.symbol ≠ 2) ∧
      g.vocabulary.literal? 3 = some "+" ∧
        ∃ token last, ((g.lexer "").tokenize "+").1 = [token, last] ∧ token.symbol = 3 := by
  have answered : (parse "g" twins "Twins" []).toOption.map (fun g =>
      ([1, 2, 3].map g.vocabulary.literal?, (g.source.ofKind .token).map Production.text?)) =
      some ([some [0x22, 0x5C, 0xFF, 0x0A], some [0x22, 0x5C, 0xFF, 0x0A], some ("+" : Bytes)],
        [some [0x22, 0x5C, 0xFF, 0x0A], some [0x22, 0x5C, 0xFF, 0x0A]]) := by
    decide +kernel
  obtain ⟨g, parsed, found⟩ := exists_ok_of_toOption answered
  simp only [List.map_cons, List.map_nil, Prod.mk.injEq, List.cons.injEq, and_true] at found
  obtain ⟨⟨one, two, plus⟩, texts⟩ := found
  obtain ⟨vocabulary, lexes⟩ := literal_lexes_to_least_type parsed (by decide +kernel)
  obtain ⟨token, last, tokens, -, -, -, -, -, least, -⟩ := lexes 2 _ "" two (by decide)
  have below := least 1 ((vocabulary 1 _).mp one)
  obtain ⟨token', last', tokens', -, -, -, -, -, -, same⟩ := lexes 3 _ "" plus (by decide)
  refine ⟨g, parsed, ⟨two, token, last, tokens, below, ?_⟩, plus, token', last', tokens', ?_⟩
  · intro second
    rw [second] at below
    exact absurd below (by decide)
  · apply same.mpr
    rintro ⟨i, p, declared, whole, -⟩
    have listed : some ("+" : Bytes) ∈ (g.source.ofKind .token).map Production.text? :=
      List.mem_map.mpr ⟨p, List.mem_of_getElem? declared, whole⟩
    rw [texts] at listed
    exact absurd listed (by decide)

end Grammar

end GrammarCompletion
