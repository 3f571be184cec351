import GrammarCompletion.Proofs.Ebnf.Declared
import GrammarCompletion.Proofs.Text.Plain

/-!
# Names of productions

A reader takes whatever stands in the place of a name for one, but notes an error if it is not an
identifier. So in a source that can be read every production is named by an identifier, which has only
letters, digits and underscores in it.
-/

namespace GrammarCompletion.Ebnf

/-! ## Identifiers -/

theorem plain_bytes_of_continuesIdentifier {r : Rune} (h : continuesIdentifier r.code) :
    r.bytes.Plain := by
  have letters : ∀ range ∈ Letter.letters, 0x20 ≤ range.first := by decide +kernel
  have digits : ∀ range ∈ Letter.digits, 0x20 ≤ range.first := by decide +kernel
  cases r with
  | char c =>
    apply Bytes.plain_utf8EncodeChar
    show 0x20 ≤ (Rune.char c).code
    simp only [continuesIdentifier, startsIdentifier, Bool.or_eq_true, decide_eq_true_eq] at h
    rcases h with (underscore | letter) | digit
    · omega
    · exact CodeRange.le_of_covers letters letter
    · exact CodeRange.le_of_covers digits digit
  | stray b =>
    have other : continuesIdentifier (Rune.stray b).code = false := by
      show continuesIdentifier 0xFFFD = false
      decide +kernel
    rw [other] at h
    cases h

theorem number_ne_identifier (first : Nat) (rest : List Glyph) : (number first rest).1 ≠ .identifier := by
  unfold number
  dsimp only
  split
  · exact LexemeKind.noConfusion
  · split
    · exact LexemeKind.noConfusion
    · split <;> exact LexemeKind.noConfusion

/-- An identifier starts with a letter or an underscore and goes on as long as it can. -/
theorem firstPiece_eq_identifier {g : Glyph} {rest : List Glyph} {extra : Nat}
    (h : firstPiece g rest = .lexeme .identifier extra) :
    startsIdentifier g.code ∧ extra = countWhile continuesIdentifier rest := by
  unfold firstPiece at h
  dsimp only at h
  by_cases blank : isBlank g.code
  · rw [if_pos blank] at h
    cases h
  rw [if_neg blank] at h
  by_cases starts : startsIdentifier g.code
  · rw [if_pos starts] at h
    cases h
    exact ⟨starts, rfl⟩
  rw [if_neg starts] at h
  by_cases decimal : isDecimal g.code
  · rw [if_pos decimal] at h
    have kind := (Piece.lexeme.inj h).1
    exact (number_ne_identifier g.code rest kind).elim
  rw [if_neg decimal] at h
  -- What is left are quoted texts, comments and signs.
  exfalso
  revert h
  cases rest with
  | nil => grind
  | cons next more => grind

theorem plain_of_mem_lexemesOf {glyphs : List Glyph} :
    ∀ l ∈ lexemesOf glyphs, l.kind = .identifier → l.text.Plain := by
  fun_induction lexemesOf glyphs with
  | case1 => simp
  | case2 g rest extra _ ih => exact ih
  | case3 g rest kind extra piece ih =>
    intro l member isIdentifier
    rcases List.mem_cons.mp member with rfl | member
    · cases isIdentifier
      obtain ⟨starts, reach⟩ := firstPiece_eq_identifier piece
      have taken : rest.take extra = rest.takeWhile fun g => continuesIdentifier g.code := by
        rw [reach]
        exact (List.prefix_iff_eq_take.mp (List.takeWhile_prefix _)).symm
      rw [taken]
      apply Bytes.plain_flatMap
      intro h listed
      apply plain_bytes_of_continuesIdentifier
      rcases List.mem_cons.mp listed with rfl | listed
      · rw [continuesIdentifier, Bool.or_eq_true]
        exact .inl starts
      · exact List.all_eq_true.mp List.all_takeWhile h listed
    · exact ih l member isIdentifier

namespace Reader

variable {r : Reader}

/-- Something else than an identifier is an error. -/
theorem kind_of_identifier (h : (identifier r).2.errors = []) :
    (r.ahead.headD r.finish).kind = .identifier := by
  by_cases isIdentifier : (r.ahead.headD r.finish).kind = .identifier
  · exact isIdentifier
  · have step : (identifier r).2 = (expect .identifier r).2 := rfl
    rw [step, expect, bind_apply, current_apply] at h
    dsimp only at h
    rw [if_neg isIdentifier] at h
    cases h

def NamedIn (lexemes : List Lexeme) (p : Production) : Prop :=
  ∃ l ∈ lexemes, l.kind = .identifier ∧ p.name.text = l.text

theorem namedIn_production {lexemes : List Lexeme} (depth : Nat) (ended : r.finish.kind = .endOfSource)
    (ahead : ∀ l ∈ r.ahead, l ∈ lexemes) (flawless : (production depth r).2.errors = []) :
    NamedIn lexemes (production depth r).1 := by
  have named := spends_identifier 0 r ended
  have rest := spends_definition 0 depth (identifier r).1 (identifier r).2 named.ended
  have isIdentifier := kind_of_identifier (rest.flawless flawless)
  unfold NamedIn
  rw [name_production]
  cases left : r.ahead with
  | nil =>
    rw [left, List.headD_nil, ended] at isIdentifier
    cases isIdentifier
  | cons l more =>
    rw [left] at isIdentifier
    exact ⟨l, ahead l (by rw [left]; exact List.mem_cons_self), isIdentifier, rfl⟩

theorem namedIn_productions (lexemes : List Lexeme) (depth fuel : Nat) (read : Source)
    (ended : r.finish.kind = .endOfSource) (ahead : ∀ l ∈ r.ahead, l ∈ lexemes)
    (named : ∀ p ∈ read, NamedIn lexemes p)
    (flawless : (productions depth fuel read r).2.errors = []) :
    ∀ p ∈ (productions depth fuel read r).1, NamedIn lexemes p := by
  induction fuel generalizing read r with
  | zero => exact named
  | succ fuel ih =>
    rw [productions_succ] at flawless ⊢
    by_cases finished : (r.ahead.headD r.finish).kind = .endOfSource
    · rw [if_pos finished]
      exact named
    · rw [if_neg finished] at flawless ⊢
      dsimp only at flawless ⊢
      have ⟨ended', forward⟩ := forward_production depth ended
      have ahead' : ∀ l ∈ (production depth r).2.ahead, l ∈ lexemes :=
        fun l member => ahead l (List.mem_of_mem_tail (forward.mem member))
      by_cases known : (Source.find? read (production depth r).1.name.text).isSome
      · rw [if_pos known] at flawless ⊢
        exact ih read ended' ahead' named flawless
      · rw [if_neg known] at flawless ⊢
        -- Errors are never taken back, so there was none when the name was read.
        have before := (spends_productions depth fuel _ _ (Nat.le_refl _) _ ended').flawless flawless
        refine ih _ ended' ahead' ?_ flawless
        intro p member
        rcases List.mem_append.mp member with member | member
        · exact named p member
        · rw [List.mem_singleton.mp member]
          exact namedIn_production depth ended ahead before

end Reader

/-- The names of productions that could be read have no control characters in them. -/
theorem plain_name_of_read {file text : Bytes} {source : Source} (h : read file text = .ok source) :
    ∀ p ∈ source, p.name.text.Plain := by
  have named := Reader.namedIn_productions (readLexemes text).1
    (5 * ((readLexemes text).1.length + 1)) ((readLexemes text).1.length + 1) []
    (r := ⟨file, (readLexemes text).1, (readLexemes text).2, []⟩) rfl (fun l member => member) (by simp)
  simp only [read, StateT.run] at h
  split at h
  next result reader hrun =>
    rw [hrun] at named
    split at h
    · next flawless =>
      cases h
      intro p member
      obtain ⟨l, listed, isIdentifier, same⟩ := named (List.isEmpty_iff.mp flawless) p member
      rw [same]
      exact plain_of_mem_lexemesOf l listed isIdentifier
    · cases h

end GrammarCompletion.Ebnf
