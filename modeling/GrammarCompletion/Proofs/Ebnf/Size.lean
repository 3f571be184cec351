import GrammarCompletion.Ebnf.Reader
import GrammarCompletion.Grammar.TokenTable

/-!
# Sources are longer than what they hold

A reader that notes no error pays for what it reads with the lexemes it passes over: one for each
literal and two for each production. So a grammar has fewer token types than its source has bytes.

`Spends n x count` says that `x`, given a credit of `n` lexemes, passes over as many more as the
result counts.
-/

namespace GrammarCompletion.Ebnf

namespace Reader

/-- What reading counts is paid by a credit and the lexemes passed over, unless there are errors,
which are never taken back. Lexemes are passed over from the front, and the lexeme behind the source
says so and stays. -/
structure SpendsAt (r : Reader) (n : Nat) (x : Reading α) (count : α → Nat) : Prop where
  ended : (x r).2.finish.kind = .endOfSource
  forward : (x r).2.ahead <:+ r.ahead
  flawless : (x r).2.errors = [] → r.errors = []
  paid : (x r).2.errors = [] → (x r).2.ahead.length + count (x r).1 ≤ r.ahead.length + n

def Spends (n : Nat) (x : Reading α) (count : α → Nat) : Prop :=
  ∀ r : Reader, r.finish.kind = .endOfSource → SpendsAt r n x count

theorem Spends.bind {n : Nat} {x : Reading α} {f : α → Reading β} {count : α → Nat}
    {total : β → Nat} (hx : Spends n x count) (hf : ∀ v, Spends (count v) (f v) total) :
    Spends n (x >>= f) total := by
  intro r hr
  have first := hx r hr
  have next := hf (x r).1 (x r).2 first.ended
  constructor
  · exact next.ended
  · exact next.forward.trans first.forward
  · exact fun h => first.flawless (next.flawless h)
  · exact fun h => Nat.le_trans (next.paid h) (first.paid (next.flawless h))

theorem Spends.pure {n : Nat} {v : α} {count : α → Nat} (h : count v ≤ n) :
    Spends n (pure v : Reading α) count :=
  fun r hr => ⟨hr, List.suffix_refl r.ahead, id, fun _ => Nat.add_le_add_left h _⟩

theorem spends_current (n : Nat) : Spends n current fun _ => n :=
  fun r hr => ⟨hr, List.suffix_refl r.ahead, id, fun _ => Nat.le_refl _⟩

theorem spends_currentPosition (n : Nat) : Spends n currentPosition fun _ => n :=
  fun r hr => ⟨hr, List.suffix_refl r.ahead, id, fun _ => Nat.le_refl _⟩

theorem spends_next (n : Nat) : Spends n next fun _ => n := by
  intro r hr
  have step : (next r).2 = { r with ahead := r.ahead.tail } := rfl
  exact ⟨hr, List.tail_suffix r.ahead, id, fun _ => by simp [step]⟩

/-- A reader with an error owes nothing. -/
theorem spends_note (n : Nat) (position : Position) (fault : Fault) (count : Unit → Nat) :
    Spends n (note position fault) count :=
  fun r hr => ⟨hr, List.suffix_refl r.ahead, (by cases ·), (by cases ·)⟩

theorem spends_noteExpected (n : Nat) (what : Bytes) (count : Unit → Nat) :
    Spends n (noteExpected what) count :=
  (spends_currentPosition n).bind fun _ => (spends_current n).bind fun _ => spends_note n _ _ count

/-- A lexeme at hand that does not end the source is passed over. -/
theorem spendsAt_next {r : Reader} (n : Nat) (hr : r.finish.kind = .endOfSource)
    (hk : (r.ahead.headD r.finish).kind ≠ .endOfSource) : SpendsAt r n next fun _ => n + 1 := by
  have step : (next r).2 = { r with ahead := r.ahead.tail } := rfl
  refine ⟨hr, List.tail_suffix r.ahead, id, fun _ => ?_⟩
  cases ha : r.ahead with
  | nil =>
    rw [ha] at hk
    exact absurd hr hk
  | cons l rest =>
    simp only [step, ha, List.tail_cons, List.length_cons]
    omega

theorem spends_expect (n : Nat) {kind : LexemeKind} (hk : kind ≠ .endOfSource) :
    Spends n (expect kind) fun _ => n + 1 := by
  intro r hr
  by_cases h : (r.ahead.headD r.finish).kind = kind
  · have step : expect kind r = next r := by
      change (if _ then _ else _ : Reading Unit) r = _
      rw [if_pos h]
    have passed := spendsAt_next n hr (h ▸ hk)
    exact ⟨step ▸ passed.ended, step ▸ passed.forward, step ▸ passed.flawless, step ▸ passed.paid⟩
  · have step : expect kind r = (noteExpected kind.name >>= fun _ => next) r := by
      change (if _ then _ else _ : Reading Unit) r = _
      rw [if_neg h]
    have noted : SpendsAt r n (noteExpected kind.name >>= fun _ => next) fun _ => n + 1 :=
      (spends_noteExpected n _ _).bind (fun _ => spends_next (n + 1)) r hr
    exact ⟨step ▸ noted.ended, step ▸ noted.forward, step ▸ noted.flawless, step ▸ noted.paid⟩

theorem spends_identifier (n : Nat) : Spends n identifier fun _ => n + 1 := by
  refine (spends_currentPosition n).bind fun _ => (spends_current n).bind fun _ => ?_
  exact (spends_expect n (by decide)).bind fun _ => .pure (Nat.le_refl _)

theorem spends_literal (n : Nat) : Spends n literal fun _ => n + 1 := by
  intro r hr
  by_cases hk : (r.ahead.headD r.finish).kind = .string ∨
      (r.ahead.headD r.finish).kind = .rawString
  · have step : (literal r).2 = (next r).2 := by
      change ((if _ then _ else _ : Reading Located) r).2 = _
      rw [if_pos hk]
      rfl
    have passed := spendsAt_next n hr (by grind)
    exact ⟨step ▸ passed.ended, step ▸ passed.forward, step ▸ passed.flawless, step ▸ passed.paid⟩
  · have step : (literal r).2 = (expect .string r).2 := by
      change ((if _ then _ else _ : Reading Located) r).2 = _
      rw [if_neg hk]
      rfl
    have passed := spends_expect n (show LexemeKind.string ≠ .endOfSource by decide) r hr
    exact ⟨step ▸ passed.ended, step ▸ passed.forward, step ▸ passed.flawless, step ▸ passed.paid⟩

/-! ## Expressions -/

def literalCount : Option Expr → Nat
  | none => 0
  | some e => e.literals.length

section
variable {fuel : Nat}

theorem spends_term (expression : ∀ n, Spends n (expression fuel) fun e => n + e.literals.length)
    (n : Nat) : Spends n (term (fuel + 1)) fun e => n + literalCount e := by
  have enclosed : ∀ (code : Nat) (wrap : Expr → Expr), (∀ e, (wrap e).literals = e.literals) →
      Spends n (do
        next
        let body ← Reader.expression fuel
        expect (.sign code)
        return some (wrap body)) fun e => n + literalCount e := by
    intro code wrap hwrap
    refine (spends_next n).bind fun _ => (expression n).bind fun e => ?_
    exact (spends_expect _ (by simp)).bind fun _ => .pure (by simp [literalCount, hwrap])
  have quoted : Spends n (do
      let first ← literal
      if (← current).kind = ellipsis then
        next
        return some (.range first (← literal))
      else return some (.literal first)) fun e => n + literalCount e := by
    refine (spends_literal n).bind fun first => (spends_current _).bind fun l => ?_
    split
    · refine (spends_next _).bind fun _ => (spends_literal _).bind fun _ => .pure ?_
      simp [literalCount, Expr.literals]
      omega
    · exact .pure (by simp [literalCount, Expr.literals])
  rw [term]
  refine (spends_current n).bind fun l => ?_
  split
  case h_1 =>
    refine (spends_identifier n).bind fun _ => .pure ?_
    simp [literalCount, Expr.literals]
  case h_2 => exact quoted
  case h_3 => exact quoted
  case h_4 =>
    split
    · exact enclosed _ .group fun _ => by simp [Expr.literals]
    · split
      · exact enclosed _ .option fun _ => by simp [Expr.literals]
      · split
        · exact enclosed _ .repetition fun _ => by simp [Expr.literals]
        · exact .pure (by simp [literalCount])

theorem spends_terms (term : ∀ n, Spends n (term fuel) fun e => n + literalCount e)
    (terms : ∀ n, Spends n (terms fuel) fun es => n + (Expr.literalsOfAll es).length) (n : Nat) :
    Spends n (Reader.terms (fuel + 1)) fun es => n + (Expr.literalsOfAll es).length := by
  rw [Reader.terms]
  refine (term n).bind fun e => ?_
  cases e with
  | none => exact .pure (by simp [Expr.literalsOfAll])
  | some x =>
    refine (terms _).bind fun rest => .pure ?_
    simp only [Expr.literalsOfAll, literalCount, List.length_append]
    omega

theorem spends_sequence
    (terms : ∀ n, Spends n (terms fuel) fun es => n + (Expr.literalsOfAll es).length) (n : Nat) :
    Spends n (sequence (fuel + 1)) fun e => n + e.literals.length := by
  rw [sequence]
  refine (terms n).bind fun items => ?_
  split
  · refine (spends_noteExpected _ _ fun _ => n).bind fun _ => .pure ?_
    simp [Expr.literals, Expr.literalsOfAll]
  · exact .pure (by simp [Expr.literalsOfAll])
  · exact .pure (by simp [Expr.literals])

theorem spends_branches (sequence : ∀ n, Spends n (sequence fuel) fun e => n + e.literals.length)
    (branches : ∀ n, Spends n (branches fuel) fun es => n + (Expr.literalsOfAll es).length)
    (n : Nat) :
    Spends n (Reader.branches (fuel + 1)) fun es => n + (Expr.literalsOfAll es).length := by
  rw [Reader.branches]
  refine (sequence n).bind fun x => (spends_current _).bind fun l => ?_
  split
  · refine (spends_next _).bind fun _ => (branches _).bind fun rest => .pure ?_
    simp only [Expr.literalsOfAll, List.length_append]
    omega
  · exact .pure (by simp [Expr.literalsOfAll])

theorem spends_expression
    (branches : ∀ n, Spends n (branches fuel) fun es => n + (Expr.literalsOfAll es).length)
    (n : Nat) : Spends n (expression (fuel + 1)) fun e => n + e.literals.length := by
  rw [expression]
  refine (branches n).bind fun items => ?_
  split
  · exact .pure (by simp [Expr.literalsOfAll])
  · exact .pure (by simp [Expr.literals])

end

theorem spends_expressions (fuel : Nat) :
    (∀ n, Spends n (term fuel) fun e => n + literalCount e) ∧
    (∀ n, Spends n (terms fuel) fun es => n + (Expr.literalsOfAll es).length) ∧
    (∀ n, Spends n (sequence fuel) fun e => n + e.literals.length) ∧
    (∀ n, Spends n (branches fuel) fun es => n + (Expr.literalsOfAll es).length) ∧
    (∀ n, Spends n (expression fuel) fun e => n + e.literals.length) := by
  induction fuel with
  | zero =>
    refine ⟨fun n => ?_, fun n => ?_, fun n => ?_, fun n => ?_, fun n => ?_⟩ <;>
      exact .pure (by simp [literalCount, Expr.literals, Expr.literalsOfAll])
  | succ fuel ih =>
    obtain ⟨hterm, hterms, hsequence, hbranches, hexpression⟩ := ih
    exact ⟨spends_term hexpression, spends_terms hterm hterms, spends_sequence hterms,
      spends_branches hsequence hbranches, spends_expression hbranches⟩

/-! ## Productions -/

/-- What a production costs: its name, the sign behind it and its literals. -/
def productionCost (p : Production) : Nat := 2 + literalCount p.body

def sourceCost (source : Source) : Nat :=
  source.foldr (fun p total => productionCost p + total) 0

theorem sourceCost_append (front back : Source) :
    sourceCost (front ++ back) = sourceCost front + sourceCost back := by
  induction front with
  | nil => simp [sourceCost]
  | cons p front ih =>
    simp only [sourceCost, List.cons_append, List.foldr_cons] at ih ⊢
    omega

theorem spends_definition (n fuel : Nat) (name : Located) :
    Spends (n + 1) (do
      expect (.ofChar '=')
      let body ← if (← current).kind = .ofChar '.' then pure none else some <$> expression fuel
      expect (.ofChar '.')
      return ⟨name, body⟩) fun p : Production => n + productionCost p := by
  refine (spends_expect _ (by decide)).bind fun _ => ?_
  have finish : ∀ body, Spends (n + 2 + literalCount body)
      (do expect (.ofChar '.'); return ⟨name, body⟩) fun p => n + productionCost p := by
    intro body
    refine (spends_expect _ (by decide)).bind fun _ => .pure ?_
    simp only [productionCost]
    omega
  refine (spends_current _).bind fun l => ?_
  split
  · exact finish none
  · refine Spends.bind ?_ finish
    rw [map_eq_pure_bind]
    refine ((spends_expressions fuel).2.2.2.2 _).bind fun e => .pure ?_
    simp [literalCount]

theorem spends_production (n fuel : Nat) :
    Spends n (production fuel) fun p => n + productionCost p :=
  (spends_identifier n).bind fun name => spends_definition n fuel name

theorem spends_productions (depth fuel n : Nat) (read : Source) (hn : sourceCost read ≤ n) :
    Spends n (productions depth fuel read) sourceCost := by
  induction fuel generalizing n read with
  | zero => exact .pure hn
  | succ fuel ih =>
    rw [productions]
    refine (spends_current n).bind fun l => ?_
    split
    · exact .pure hn
    · refine (spends_production n depth).bind fun p => ?_
      split
      · exact (spends_note _ _ _ fun _ => n).bind fun _ => ih n read hn
      · refine ih _ _ ?_
        rw [sourceCost_append]
        simp only [sourceCost, List.foldr_cons, List.foldr_nil] at hn ⊢
        omega

end Reader

/-! ## Lexemes and bytes -/

theorem length_lexemesOf_le (glyphs : List Glyph) : (lexemesOf glyphs).length ≤ glyphs.length := by
  fun_induction lexemesOf glyphs with
  | case1 => simp
  | case2 g rest extra hp ih =>
    simp only [List.length_drop, List.length_cons] at ih ⊢
    omega
  | case3 g rest kind extra hp ih =>
    simp only [List.length_drop, List.length_cons] at ih ⊢
    omega

theorem length_locate (place : Place) (runes : List Rune) :
    (Glyph.locate place runes).length = runes.length := by
  induction runes generalizing place with
  | nil => rfl
  | cons r rest ih => simp [Glyph.locate, ih]

theorem length_runesAfter_le (skip : Nat) (text : Bytes) :
    (Bytes.runesAfter skip text).length ≤ text.length := by
  induction text generalizing skip with
  | nil => simp [Bytes.runesAfter]
  | cons b rest ih =>
    cases skip with
    | zero => simpa [Bytes.runesAfter] using ih _
    | succ skip =>
      have := ih skip
      simp only [Bytes.runesAfter, List.length_cons]
      omega

theorem length_readLexemes_le (source : Bytes) :
    (readLexemes source).1.length ≤ source.length := by
  have glyphs : (glyphsOf source).length ≤ source.length := by
    have located := length_locate Place.start source.runes
    have runes := length_runesAfter_le 0 source
    unfold glyphsOf
    split
    · simp
    · rename_i g rest h
      rw [h, List.length_cons] at located
      have : rest.length + 1 ≤ source.length := located ▸ runes
      split
      · omega
      · simpa using this
  exact Nat.le_trans (length_lexemesOf_le _) glyphs

/-- A source that can be read pays for its productions. -/
theorem sourceCost_le_of_read {file text : Bytes} {source : Source}
    (h : read file text = .ok source) : Reader.sourceCost source ≤ text.length := by
  have spent := Reader.spends_productions (5 * ((readLexemes text).1.length + 1))
    ((readLexemes text).1.length + 1) 0 [] (Nat.le_refl _)
    ⟨file, (readLexemes text).1, (readLexemes text).2, []⟩ rfl
  have paid := spent.paid
  have short := length_readLexemes_le text
  simp only [read, StateT.run] at h
  split at h
  case h_1 result reader hrun =>
    rw [hrun] at paid
    split at h
    case isTrue hempty =>
      cases h
      have := paid (List.isEmpty_iff.mp hempty)
      dsimp only at this
      omega
    case isFalse => cases h

end GrammarCompletion.Ebnf
