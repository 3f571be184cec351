import GrammarCompletion.Proofs.Editor.Position
import GrammarCompletion.Proofs.Text.Quoted

/-!
# Positions and rune boundaries

No rune goes beyond an end of line, so the runes of a line are the same whether or not the text behind it
is read. A position stands for the last rune boundary of its line that lies at most as many UTF-16 units
behind the start as the position says: a rune of two units is never cut in two, and a stray byte is one
unit. Hence each boundary is found from its own distance, and later positions never lie before earlier
ones.
-/

namespace GrammarCompletion

open Bytes (newline)

namespace Rune

theorem length_bytes (r : Rune) : r.bytes.length = r.width := by
  cases r with
  | char c => exact String.length_utf8EncodeChar c
  | stray b => rfl

theorem one_le_units (r : Rune) : 1 ≤ r.units := by
  unfold units
  split <;> omega

/-- An end of line is no inner byte of a character. -/
theorem getElem_utf8EncodeChar_ne {c : Char} {i : Nat} (inside : i < (String.utf8EncodeChar c).length)
    (inner : i ≠ 0) : (String.utf8EncodeChar c)[i] ≠ newline := by
  intro same
  have first : (String.utf8EncodeChar c)[i].IsUTF8FirstByte := by
    rw [same]
    decide
  exact inner (UInt8.isUTF8FirstByte_getElem_utf8EncodeChar.mp first)

theorem first_eq_char_iff {b : UInt8} {rest : Bytes} {c : Char} :
    first b rest = .char c ↔ String.utf8EncodeChar c <+: b :: rest := by
  constructor
  · intro read
    have spelled := bytes_first_append b rest
    rw [read] at spelled
    exact ⟨_, spelled⟩
  · rintro ⟨behind, spelled⟩
    exact first_of_utf8EncodeChar behind spelled.symm

theorem first_eq_stray {b : UInt8} {rest : Bytes} (noChar : ∀ c, first b rest ≠ .char c) :
    first b rest = .stray b := by
  unfold first at noChar ⊢
  split
  · next c decoded => exact absurd (by rw [decoded]) (noChar c)
  · rfl

/-- A character that is read from a line with more behind it lies in the line. -/
theorem utf8EncodeChar_isPrefix_iff {c : Char} {b : UInt8} {line behind : Bytes} :
    String.utf8EncodeChar c <+: b :: (line ++ newline :: behind) ↔
      String.utf8EncodeChar c <+: b :: line := by
  rw [← List.cons_append]
  constructor
  · intro front
    rcases List.prefix_or_prefix_of_prefix front (List.prefix_append _ _) with inside | ⟨more, longer⟩
    · exact inside
    · rw [← longer, List.prefix_append_right_inj] at front
      cases more with
      | nil =>
        rw [List.append_nil] at longer
        exact ⟨[], by rw [List.append_nil, longer]⟩
      | cons b' more =>
        -- otherwise the end of line would be one of its inner bytes
        obtain rfl : b' = newline := (List.cons_prefix_cons.mp front).1
        have found : (String.utf8EncodeChar c)[(b :: line).length]? = some newline := by
          rw [← longer, List.getElem?_append_right (Nat.le_refl _), Nat.sub_self]
          rfl
        obtain ⟨inside, same⟩ := List.getElem?_eq_some_iff.mp found
        exact absurd same (getElem_utf8EncodeChar_ne inside (by simp))
  · intro front
    exact front.trans (List.prefix_append _ _)

/-- The rune at the front of a line does not depend on what stands behind the line. -/
theorem first_append_newline (b : UInt8) (line behind : Bytes) :
    first b (line ++ newline :: behind) = first b line := by
  have sameChar (c : Char) :
      first b (line ++ newline :: behind) = .char c ↔ first b line = .char c := by
    rw [first_eq_char_iff, first_eq_char_iff, utf8EncodeChar_isPrefix_iff]
  by_cases noChar : ∀ c, first b line ≠ .char c
  · rw [first_eq_stray noChar, first_eq_stray fun c read => noChar c ((sameChar c).mp read)]
  · obtain ⟨c, read⟩ := Classical.not_forall_not.mp noChar
    rw [read, (sameChar c).mpr read]

end Rune

namespace Bytes

theorem first_newline (rest : Bytes) : Rune.first newline rest = .char '\n' :=
  Rune.first_of_utf8EncodeChar rest rfl

theorem runesAfter_append_newline (skip : Nat) (line behind : Bytes) (inside : skip ≤ line.length) :
    (line ++ newline :: behind).runesAfter skip =
      line.runesAfter skip ++ .char '\n' :: behind.runes := by
  induction line generalizing skip with
  | nil =>
    obtain rfl : skip = 0 := Nat.le_zero.mp inside
    have none : runesAfter 0 ([] : Bytes) = [] := rfl
    rw [none, List.nil_append, List.nil_append, runesAfter, first_newline]
    rfl
  | cons b line ih =>
    cases skip with
    | succ skip =>
      rw [List.cons_append, runesAfter, runesAfter, ih skip (Nat.le_of_succ_le_succ inside)]
    | zero =>
      have fits := Rune.width_first_le b line
      rw [List.cons_append, runesAfter, Rune.first_append_newline, ih _ (by omega), runesAfter]
      rfl

theorem runes_append_newline (line behind : Bytes) :
    (line ++ newline :: behind).runes = line.runes ++ .char '\n' :: behind.runes :=
  runesAfter_append_newline 0 line behind (Nat.zero_le _)

theorem code_ne_of_mem_runes {line : Bytes} (unbroken : newline ∉ line) :
    ∀ r ∈ line.runes, r.code ≠ 0x0A := by
  intro r member same
  have spelled := flatMap_bytes_runes line
  cases r with
  | char c =>
    obtain rfl : c = '\n' := Char.toNat_inj.mp same
    apply unbroken
    rw [← spelled, List.mem_flatMap]
    exact ⟨_, member, by decide⟩
  | stray b => simp [Rune.code] at same

end Bytes

namespace TextPosition

/-! ## Boundaries -/

/-- The boundaries between runes: the bytes before a boundary, and the UTF-16 units of their runes. -/
inductive Boundary : List Rune → (bytes units : Nat) → Prop
  | start (runes : List Rune) : Boundary runes 0 0
  | behind {r : Rune} {runes : List Rune} {bytes units : Nat} (later : Boundary runes bytes units) :
    Boundary (r :: runes) (r.width + bytes) (r.units + units)

namespace Boundary

variable {runes : List Rune} {bytes units bytes' units' : Nat}

theorem le_length (h : Boundary runes bytes units) : bytes ≤ (runes.flatMap Rune.bytes).length := by
  induction h with
  | start => exact Nat.zero_le _
  | @behind r runes bytes units later ih =>
    rw [List.flatMap_cons, List.length_append, r.length_bytes]
    omega

theorem le_of_units_le (h : Boundary runes bytes units) (h' : Boundary runes bytes' units')
    (le : units ≤ units') : bytes ≤ bytes' := by
  induction h generalizing bytes' units' with
  | start => exact Nat.zero_le _
  | @behind r runes bytes units later ih =>
    cases h' with
    | start =>
      have := r.one_le_units
      omega
    | behind later' =>
      have := ih later' (by omega)
      omega

end Boundary

theorem exists_boundary {runes : List Rune} (unbroken : ∀ r ∈ runes, r.code ≠ 0x0A) (units : Nat) :
    ∃ n ≤ units, Boundary runes (bytesBefore units runes) n := by
  induction runes generalizing units with
  | nil => exact ⟨0, Nat.zero_le _, .start []⟩
  | cons r runes ih =>
    rw [List.forall_mem_cons] at unbroken
    rw [bytesBefore]
    split
    · exact ⟨0, Nat.zero_le _, .start _⟩
    · obtain ⟨n, within, boundary⟩ := ih unbroken.2 (units - r.units)
      exact ⟨r.units + n, by omega, .behind boundary⟩

/-- No boundary within a number of units lies behind the bytes that it leads to. -/
theorem Boundary.le_bytesBefore {runes : List Rune} {bytes n units : Nat}
    (unbroken : ∀ r ∈ runes, r.code ≠ 0x0A) (h : Boundary runes bytes n) (within : n ≤ units) :
    bytes ≤ bytesBefore units runes := by
  induction h generalizing units with
  | start => exact Nat.zero_le _
  | @behind r runes bytes n later ih =>
    rw [List.forall_mem_cons] at unbroken
    rw [bytesBefore, if_neg (by have := unbroken.1; omega)]
    have later := ih unbroken.2 (show n ≤ units - r.units by omega)
    omega

theorem bytesBefore_append_newline (units : Nat) (runes behind : List Rune) :
    bytesBefore units (runes ++ .char '\n' :: behind) = bytesBefore units runes := by
  induction runes generalizing units with
  | nil => simp [bytesBefore, Rune.code]
  | cons r runes ih => rw [List.cons_append, bytesBefore, bytesBefore, ih]

/-! ## Lines -/

/-- A line of a text, by what stands before and behind it: as many lines end before it as its number
says, it starts behind an end of line or with the text, and goes on up to the next end of line or the
end of the text. -/
structure LineAt (text : Bytes) (line : Nat) (before content after : Bytes) : Prop where
  spells : text = before ++ content ++ after
  number : before.count newline = line
  opens : ∀ b ∈ before.getLast?, b = newline
  unbroken : newline ∉ content
  closes : ∀ b ∈ after.head?, b = newline

theorem nextLine?_of_not_mem {text : Bytes} (unbroken : newline ∉ text) : nextLine? text = none := by
  induction text with
  | nil => rfl
  | cons b text ih =>
    rw [List.mem_cons, not_or] at unbroken
    rw [nextLine?, if_neg (Ne.symm unbroken.1), ih unbroken.2]
    rfl

theorem nextLine?_append {front : Bytes} (unbroken : newline ∉ front) (rest : Bytes) :
    nextLine? (front ++ newline :: rest) = some (front.length + 1, rest) := by
  induction front with
  | nil => rfl
  | cons b front ih =>
    rw [List.mem_cons, not_or] at unbroken
    rw [List.cons_append, nextLine?, if_neg (Ne.symm unbroken.1), ih unbroken.2]
    rfl

theorem count_append_newline {front : Bytes} (unbroken : newline ∉ front) (rest : Bytes) :
    (front ++ newline :: rest).count newline = rest.count newline + 1 := by
  rw [List.count_append, List.count_cons_self, List.count_eq_zero_of_not_mem unbroken, Nat.zero_add]

/-- Behind the first end of line, lines have one number less. -/
theorem lineAt_succ_iff {line : Nat} {front text before content after : Bytes}
    (unbroken : newline ∉ front) :
    LineAt (front ++ newline :: text) (line + 1) (front ++ newline :: before) content after ↔
      LineAt text line before content after := by
  have opens : (∀ b ∈ (front ++ newline :: before).getLast?, b = newline) ↔
      ∀ b ∈ before.getLast?, b = newline := by
    cases before with
    | nil => simp
    | cons b before => simp [List.getLast?_append, List.getLast?_cons_cons]
  constructor
  · intro h
    refine ⟨?_, ?_, opens.mp h.opens, h.unbroken, h.closes⟩
    · simpa using h.spells
    · simpa [count_append_newline unbroken] using h.number
  · intro h
    refine ⟨?_, ?_, opens.mpr h.opens, h.unbroken, h.closes⟩
    · simp [h.spells]
    · rw [count_append_newline unbroken, h.number]

theorem lineStart?_of_count_lt {line : Nat} {text : Bytes} (few : text.count newline < line) :
    lineStart? line text = none := by
  induction line generalizing text with
  | zero => omega
  | succ line ih =>
    by_cases broken : newline ∈ text
    · obtain ⟨front, rest, rfl, unbroken⟩ := List.eq_append_cons_of_mem broken
      rw [count_append_newline unbroken] at few
      rw [lineStart?, nextLine?_append unbroken]
      simp only [ih (Nat.lt_of_succ_lt_succ few), Option.map_none]
    · rw [lineStart?, nextLine?_of_not_mem broken]

theorem exists_lineAt {line : Nat} {text : Bytes} (enough : line ≤ text.count newline) :
    ∃ before content after, LineAt text line before content after := by
  induction line generalizing text with
  | zero =>
    by_cases broken : newline ∈ text
    · obtain ⟨front, rest, rfl, unbroken⟩ := List.eq_append_cons_of_mem broken
      exact ⟨[], front, newline :: rest, rfl, rfl, by simp, unbroken, by simp⟩
    · exact ⟨[], text, [], by simp, rfl, by simp, broken, by simp⟩
  | succ line ih =>
    have broken : newline ∈ text := List.count_pos_iff.mp (by omega)
    obtain ⟨front, rest, rfl, unbroken⟩ := List.eq_append_cons_of_mem broken
    rw [count_append_newline unbroken] at enough
    obtain ⟨before, content, after, h⟩ := ih (Nat.le_of_succ_le_succ enough)
    exact ⟨_, content, after, (lineAt_succ_iff unbroken).mpr h⟩

theorem LineAt.lineStart?_eq {line : Nat} {text before content after : Bytes}
    (h : LineAt text line before content after) :
    lineStart? line text = some (before.length, content ++ after) := by
  induction line generalizing text before with
  | zero =>
    have empty : before = [] := by
      cases last : before.getLast? with
      | none => exact List.getLast?_eq_none_iff.mp last
      | some b =>
        obtain rfl := h.opens b last
        have := List.count_pos_iff.mpr (List.mem_of_getLast? last)
        have := h.number
        omega
    rw [lineStart?, h.spells, empty]
    rfl
  | succ line ih =>
    have broken : newline ∈ before := List.count_pos_iff.mp (by rw [h.number]; omega)
    obtain ⟨front, rest, rfl, unbroken⟩ := List.eq_append_cons_of_mem broken
    have text_eq : text = front ++ newline :: (rest ++ content ++ after) := by
      rw [h.spells]
      simp
    subst text_eq
    rw [lineStart?, nextLine?_append unbroken]
    simp only [ih ((lineAt_succ_iff unbroken).mp h), Option.map_some]
    simp
    omega

/-! ## Offsets -/

/-- An offset that a position with a number of units may stand for: a rune boundary of the line, at most
that many units behind its start. -/
def Admits (before content : Bytes) (character o : Nat) : Prop :=
  ∃ bytes units, Boundary content.runes bytes units ∧ units ≤ character ∧ o = before.length + bytes

variable {text before content after : Bytes} {line : Nat}

theorem LineAt.offset_eq (h : LineAt text line before content after) (character : Nat) :
    offset text line character = before.length + bytesBefore character content.runes := by
  have runes : bytesBefore character (content ++ after).runes =
      bytesBefore character content.runes := by
    cases rest : after with
    | nil => rw [List.append_nil]
    | cons b rest' =>
      obtain rfl := h.closes b (by rw [rest]; rfl)
      rw [Bytes.runes_append_newline, bytesBefore_append_newline]
  rw [offset, Int.toNat_natCast, Int.toNat_natCast, h.lineStart?_eq]
  exact congrArg (before.length + ·) runes

/-- A position stands for the largest offset of its line that it admits. -/
theorem LineAt.offset_largest (h : LineAt text line before content after) (character : Nat) :
    Admits before content character (offset text line character) ∧
      ∀ o, Admits before content character o → o ≤ offset text line character := by
  have unbroken := Bytes.code_ne_of_mem_runes h.unbroken
  rw [h.offset_eq]
  constructor
  · obtain ⟨units, within, boundary⟩ := exists_boundary unbroken character
    exact ⟨_, units, boundary, within, rfl⟩
  · rintro o ⟨bytes, units, boundary, within, rfl⟩
    exact Nat.add_le_add_left (boundary.le_bytesBefore unbroken within) _

theorem Admits.le {character o : Nat} (h : Admits before content character o) :
    o ≤ before.length + content.length := by
  obtain ⟨bytes, units, boundary, -, rfl⟩ := h
  have within := boundary.le_length
  rw [Bytes.flatMap_bytes_runes] at within
  exact Nat.add_le_add_left within _

theorem Admits.mono {character character' o : Nat} (h : Admits before content character o)
    (le : character ≤ character') : Admits before content character' o := by
  obtain ⟨bytes, units, boundary, within, same⟩ := h
  exact ⟨bytes, units, boundary, Nat.le_trans within le, same⟩

theorem LineAt.before_later {line' : Nat} {before' content' after' : Bytes}
    (h : LineAt text line before content after) (h' : LineAt text line' before' content' after')
    (later : line < line') : before.length + content.length ≤ before'.length := by
  have front : before ++ content <+: text := ⟨after, h.spells.symm⟩
  have front' : before' <+: text := ⟨content' ++ after', by rw [← List.append_assoc, h'.spells]⟩
  rcases List.prefix_or_prefix_of_prefix front front' with shorter | longer
  · simpa using shorter.length_le
  · -- otherwise no more lines would end before it
    have fewer := longer.sublist.count_le newline
    rw [List.count_append, h.number, h'.number, List.count_eq_zero_of_not_mem h.unbroken] at fewer
    omega

theorem offset_of_count_lt (few : text.count newline < line) (character : Nat) :
    offset text line character = text.length := by
  rw [offset, Int.toNat_natCast, lineStart?_of_count_lt few]

theorem offset_mono_of_line_lt {line' : Nat} (later : line < line') (character character' : Nat) :
    offset text line character ≤ offset text line' character' := by
  by_cases enough : line' ≤ text.count newline
  · obtain ⟨before, content, after, h⟩ := exists_lineAt (Nat.le_trans (Nat.le_of_lt later) enough)
    obtain ⟨before', content', after', h'⟩ := exists_lineAt enough
    calc offset text line character
        ≤ before.length + content.length := (h.offset_largest character).1.le
      _ ≤ before'.length := h.before_later h' later
      _ ≤ offset text line' character' := by
        rw [h'.offset_eq]
        exact Nat.le_add_right _ _
  · rw [offset_of_count_lt (Nat.not_le.mp enough)]
    exact offset_le_length text line character

theorem offset_mono_of_character_le {character character' : Nat} (le : character ≤ character') :
    offset text line character ≤ offset text line character' := by
  by_cases enough : line ≤ text.count newline
  · obtain ⟨before, content, after, h⟩ := exists_lineAt enough
    exact (h.offset_largest character').2 _ ((h.offset_largest character).1.mono le)
  · have few := Nat.not_le.mp enough
    exact Nat.le_of_eq (by rw [offset_of_count_lt few, offset_of_count_lt few])

theorem LineAt.offset_boundary (h : LineAt text line before content after) {bytes units : Nat}
    (boundary : Boundary content.runes bytes units) :
    offset text line units = before.length + bytes := by
  obtain ⟨⟨bytes', units', boundary', within, same⟩, largest⟩ := h.offset_largest units
  have least := largest _ ⟨bytes, units, boundary, Nat.le_refl _, rfl⟩
  have most := boundary'.le_of_units_le boundary within
  omega

/-- What positions stand for, in texts that need not be valid UTF-8. Behind the last line it is the end
of the text; in a line it is the largest rune boundary that is not more units away from the start of the
line than the position says. So each boundary of a line is what its own distance stands for, and a
position that does not come before another one does not stand for less. -/
theorem offset_largest_boundary (text : Bytes) (line character : Nat) :
    (text.count newline < line → offset text line character = text.length) ∧
    (line ≤ text.count newline → ∃ before content after, LineAt text line before content after) ∧
    (∀ before content after, LineAt text line before content after →
      Admits before content character (offset text line character) ∧
      (∀ o, Admits before content character o → o ≤ offset text line character) ∧
      ∀ bytes units, Boundary content.runes bytes units →
        offset text line units = before.length + bytes) ∧
    ∀ line' character' : Nat, line < line' ∨ line = line' ∧ character ≤ character' →
      offset text line character ≤ offset text line' character' := by
  refine ⟨fun few => offset_of_count_lt few character, exists_lineAt, ?_, ?_⟩
  · intro before content after h
    obtain ⟨admitted, largest⟩ := h.offset_largest character
    exact ⟨admitted, largest, fun bytes units boundary => h.offset_boundary boundary⟩
  · rintro line' character' (later | ⟨rfl, le⟩)
    · exact offset_mono_of_line_lt later character character'
    · exact offset_mono_of_character_le le

/-- A line with a stray byte and a character of two units between two other lines. -/
def mixedText : Bytes := ("ab\n" : Bytes) ++ ([0xFF] ++ ("é😀x" : Bytes)) ++ ("\ncd" : Bytes)

/-- Three units end in the middle of the second character, which is left out. -/
theorem offset_largest_boundary_mixed :
    LineAt mixedText 1 ("ab\n" : Bytes) ([0xFF] ++ ("é😀x" : Bytes)) ("\ncd" : Bytes) ∧
      offset mixedText 1 3 = 6 ∧ Admits ("ab\n" : Bytes) ([0xFF] ++ ("é😀x" : Bytes)) 3 6 ∧
      (∀ o, Admits ("ab\n" : Bytes) ([0xFF] ++ ("é😀x" : Bytes)) 3 o → o ≤ 6) ∧
      mixedText.count newline < 5 ∧ offset mixedText 5 0 = mixedText.length := by
  have line : LineAt mixedText 1 ("ab\n" : Bytes) ([0xFF] ++ ("é😀x" : Bytes)) ("\ncd" : Bytes) :=
    ⟨rfl, by decide +kernel, by decide +kernel, by decide +kernel, by decide +kernel⟩
  have computed : offset mixedText 1 3 = 6 := by decide +kernel
  obtain ⟨-, -, inLine, -⟩ := offset_largest_boundary mixedText 1 3
  obtain ⟨admitted, largest, -⟩ := inLine _ _ _ line
  have admitted : Admits _ _ 3 (offset mixedText 1 3) := admitted
  rw [computed] at admitted
  have few : mixedText.count newline < 5 := by decide +kernel
  refine ⟨line, computed, admitted, fun o h => ?_, few, (offset_largest_boundary mixedText 5 0).1 few⟩
  exact computed ▸ largest o h

end TextPosition

end GrammarCompletion
