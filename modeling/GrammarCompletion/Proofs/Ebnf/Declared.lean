import GrammarCompletion.Proofs.Ebnf.Size
import GrammarCompletion.Proofs.Editor.Position

/-!
# Productions as they were declared

A reader passes over the lexemes of a source from front to back, and of two productions with one name
the first stays. So the productions of a source stand in the order of its text, and no two of them
have the same name.
-/

namespace GrammarCompletion.Ebnf

/-! ## Lexemes in the order of the text -/

theorem le_offset_of_mem_locate {place : Place} {runes : List Rune} :
    ∀ g ∈ Glyph.locate place runes, place.offset ≤ g.place.offset := by
  induction runes generalizing place with
  | nil => simp [Glyph.locate]
  | cons r runes ih =>
    have further : place.offset ≤ (place.after r).offset := by
      unfold Place.after
      split <;> simp
    rw [Glyph.locate, List.forall_mem_cons]
    exact ⟨Nat.le_refl _, fun g hg => Nat.le_trans further (ih g hg)⟩

theorem ascending_locate (place : Place) (runes : List Rune) :
    (Glyph.locate place runes).Pairwise fun g h => g.place.offset < h.place.offset := by
  induction runes generalizing place with
  | nil => exact .nil
  | cons r runes ih =>
    have further : place.offset < (place.after r).offset := by
      have := r.one_le_width
      unfold Place.after
      split <;> (dsimp only; omega)
    exact .cons (fun g hg => Nat.lt_of_lt_of_le further (le_offset_of_mem_locate g hg)) (ih _)

theorem ascending_glyphsOf (source : Bytes) :
    (glyphsOf source).Pairwise fun g h => g.place.offset < h.place.offset := by
  have located := ascending_locate Place.start source.runes
  unfold glyphsOf
  split
  · exact .nil
  · next g rest found =>
    rw [found] at located
    split
    · exact located.of_cons
    · exact located

/-- A lexeme starts where a glyph is. -/
theorem exists_glyph_of_mem_lexemesOf {glyphs : List Glyph} :
    ∀ l ∈ lexemesOf glyphs, ∃ g ∈ glyphs, g.place = l.place := by
  fun_induction lexemesOf glyphs with
  | case1 => simp
  | case2 g rest extra _ ih =>
    intro l hl
    obtain ⟨h, hh, same⟩ := ih l hl
    exact ⟨h, List.mem_cons_of_mem _ (List.mem_of_mem_drop hh), same⟩
  | case3 g rest kind extra _ ih =>
    intro l hl
    rcases List.mem_cons.mp hl with rfl | hl
    · exact ⟨g, List.mem_cons_self, rfl⟩
    · obtain ⟨h, hh, same⟩ := ih l hl
      exact ⟨h, List.mem_cons_of_mem _ (List.mem_of_mem_drop hh), same⟩

theorem ascending_lexemesOf {glyphs : List Glyph}
    (ascending : glyphs.Pairwise fun g h => g.place.offset < h.place.offset) :
    (lexemesOf glyphs).Pairwise fun l m => l.place.offset < m.place.offset := by
  fun_induction lexemesOf glyphs with
  | case1 => exact .nil
  | case2 g rest extra _ ih =>
    exact ih (ascending.of_cons.sublist (List.drop_sublist extra rest))
  | case3 g rest kind extra _ ih =>
    refine .cons (fun l hl => ?_) (ih (ascending.of_cons.sublist (List.drop_sublist extra rest)))
    obtain ⟨h, hh, same⟩ := exists_glyph_of_mem_lexemesOf l hl
    rw [← same]
    exact List.rel_of_pairwise_cons ascending (List.mem_of_mem_drop hh)

/-! ## Productions in the order of the text -/

/-- The name of the production stands in front of an offset of the source. -/
def Production.IsBefore (p : Production) (offset : Nat) : Prop :=
  ∃ place, p.name.position.place = some place ∧ place.offset < offset

/-- The productions have names of their own and stand in the order of the text. -/
def Source.Declared (source : Source) : Prop :=
  source.Pairwise fun p q => p.name.text ≠ q.name.text ∧
    ∃ place, q.name.position.place = some place ∧ p.IsBefore place.offset

theorem Source.Declared.nodup {source : Source} (h : source.Declared) :
    (source.map fun p => p.name.text).Nodup := by
  rw [List.Nodup, List.pairwise_map]
  exact h.imp fun both => both.1

namespace Reader

variable {r : Reader}

theorem bind_apply (x : Reading α) (f : α → Reading β) (r : Reader) :
    (x >>= f) r = f (x r).1 (x r).2 := rfl

theorem current_apply (r : Reader) : current r = (r.ahead.headD r.finish, r) := rfl

theorem ahead_identifier (r : Reader) : (identifier r).2.ahead = r.ahead.tail := by
  have step : (identifier r).2 = (expect .identifier r).2 := rfl
  rw [step, expect, bind_apply, current_apply]
  dsimp only
  split <;> rfl

theorem name_production (fuel : Nat) (r : Reader) :
    (production fuel r).1.name =
      ⟨⟨r.file, some (r.ahead.headD r.finish).place⟩, (r.ahead.headD r.finish).text⟩ := by
  rw [production, bind_apply, bind_apply, bind_apply, current_apply]
  dsimp only
  split <;> rfl

theorem productions_succ (depth fuel : Nat) (read : Source) (r : Reader) :
    productions depth (fuel + 1) read r =
      if (r.ahead.headD r.finish).kind = .endOfSource then (read, r)
      else
        let p := (production depth r).1
        let rest := (production depth r).2
        if (Source.find? read p.name.text).isSome then
          productions depth fuel read (note p.name.position (.declaredAlready p.name.text) rest).2
        else productions depth fuel (read ++ [p]) rest := by
  rw [productions, bind_apply, current_apply]
  dsimp only
  split
  · rfl
  · rw [bind_apply]
    split <;> rfl

theorem forward_production (fuel : Nat) (ended : r.finish.kind = .endOfSource) :
    (production fuel r).2.finish.kind = .endOfSource ∧
      (production fuel r).2.ahead <:+ r.ahead.tail := by
  have whole := spends_production 0 fuel r ended
  have named := spends_identifier 0 r ended
  have rest := spends_definition 0 fuel (identifier r).1 (identifier r).2 named.ended
  rw [← ahead_identifier]
  exact ⟨whole.ended, rest.forward⟩

theorem declared_productions (depth fuel : Nat) (read : Source)
    (ended : r.finish.kind = .endOfSource)
    (ascending : r.ahead.Pairwise fun l m => l.place.offset < m.place.offset)
    (declared : Source.Declared read)
    (behind : ∀ l ∈ r.ahead, ∀ p ∈ read, p.IsBefore l.place.offset) :
    Source.Declared (productions depth fuel read r).1 := by
  induction fuel generalizing read r with
  | zero => exact declared
  | succ fuel ih =>
    rw [productions_succ]
    by_cases finished : (r.ahead.headD r.finish).kind = .endOfSource
    · rw [if_pos finished]
      exact declared
    · rw [if_neg finished]
      cases left : r.ahead with
      | nil =>
        rw [left] at finished
        exact absurd ended finished
      | cons l rest =>
        obtain ⟨ended', forward⟩ := forward_production depth ended
        have name := name_production depth r
        rw [left, List.tail_cons] at forward
        rw [left, List.headD_cons] at name
        rw [left] at ascending behind
        obtain ⟨first, others⟩ := List.pairwise_cons.mp ascending
        obtain ⟨here, later⟩ := List.forall_mem_cons.mp behind
        have ascending' := others.sublist forward.sublist
        have later' : ∀ m ∈ (production depth r).2.ahead, ∀ p ∈ read, p.IsBefore m.place.offset :=
          fun m hm => later m (forward.mem hm)
        dsimp only
        by_cases known : (Source.find? read (production depth r).1.name.text).isSome
        · rw [if_pos known]
          exact ih _ ended' ascending' declared later'
        · rw [if_neg known]
          rw [Option.not_isSome_iff_eq_none, Source.find?, List.find?_eq_none] at known
          refine ih _ ended' ascending' ?_ ?_
          · refine List.pairwise_append.mpr ⟨declared, List.pairwise_singleton _ _, ?_⟩
            intro p hp q hq
            cases List.mem_singleton.mp hq
            refine ⟨by simpa using known p hp, l.place, ?_, here p hp⟩
            rw [name]
          · intro m hm p hp
            rcases List.mem_append.mp hp with hp | hp
            · exact later' m hm p hp
            · cases List.mem_singleton.mp hp
              exact ⟨l.place, by rw [name], first m (forward.mem hm)⟩

end Reader

/-- A source that can be read is one of productions as they were declared. -/
theorem declared_of_read {file text : Bytes} {source : Source} (h : read file text = .ok source) :
    source.Declared := by
  have declared := Reader.declared_productions (5 * ((readLexemes text).1.length + 1))
    ((readLexemes text).1.length + 1) [] (r := ⟨file, (readLexemes text).1, (readLexemes text).2, []⟩)
    rfl (ascending_lexemesOf (ascending_glyphsOf text)) .nil (by simp)
  simp only [read, StateT.run] at h
  split at h
  next result reader hrun =>
    rw [hrun] at declared
    split at h
    · cases h
      exact declared
    · cases h

end GrammarCompletion.Ebnf
