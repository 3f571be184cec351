import GrammarCompletion.Editor.TextPosition

/-!
# Positions lie in their text

Every rune is read from bytes that are there, so the offset of a position never lies behind the end of
its text.
-/

namespace GrammarCompletion

namespace Rune

theorem one_le_width (r : Rune) : 1 ≤ r.width := by
  cases r with
  | char c => exact Char.utf8Size_pos c
  | stray b => exact Nat.le_refl 1

theorem width_first_le (b : UInt8) (rest : Bytes) : (first b rest).width ≤ rest.length + 1 := by
  unfold first
  split
  · next c decoded =>
    have fits := ByteArray.le_size_of_utf8DecodeChar?_eq_some decoded
    rw [List.size_toByteArray, List.length_cons, List.length_take] at fits
    show c.utf8Size ≤ rest.length + 1
    omega
  · show 1 ≤ rest.length + 1
    omega

end Rune

namespace TextPosition

theorem length_of_nextLine? {text rest : Bytes} {n : Nat} (h : nextLine? text = some (n, rest)) :
    n + rest.length = text.length := by
  induction text generalizing n with
  | nil => cases h
  | cons b text ih =>
    unfold nextLine? at h
    split at h
    · cases h
      exact Nat.add_comm 1 _
    · obtain ⟨⟨m, more⟩, found, same⟩ := Option.map_eq_some_iff.mp h
      cases same
      have shorter := ih found
      rw [List.length_cons]
      omega

theorem length_of_lineStart? {line : Nat} {text rest : Bytes} {n : Nat}
    (h : lineStart? line text = some (n, rest)) : n + rest.length = text.length := by
  induction line generalizing text n with
  | zero =>
    cases h
    exact Nat.zero_add _
  | succ line ih =>
    unfold lineStart? at h
    split at h
    · cases h
    · next m behind found =>
      obtain ⟨⟨k, more⟩, started, same⟩ := Option.map_eq_some_iff.mp h
      cases same
      have first := length_of_nextLine? found
      have later := ih started
      omega

/-- The runes in a line take no more bytes than the text has behind those that are skipped. -/
theorem bytesBefore_le (units skip : Nat) (text : Bytes) :
    bytesBefore units (text.runesAfter skip) ≤ text.length - skip := by
  induction text generalizing units skip with
  | nil => exact Nat.le_of_eq (by simp [Bytes.runesAfter, bytesBefore])
  | cons b rest ih =>
    rw [List.length_cons]
    cases skip with
    | succ skip =>
      have later := ih units skip
      rw [Bytes.runesAfter]
      omega
    | zero =>
      rw [Bytes.runesAfter, bytesBefore]
      split
      · exact Nat.zero_le _
      · have least := (Rune.first b rest).one_le_width
        have fits := Rune.width_first_le b rest
        have later := ih (units - (Rune.first b rest).units) ((Rune.first b rest).width - 1)
        omega

theorem offset_le_length (text : Bytes) (line character : Int) :
    offset text line character ≤ text.length := by
  unfold offset
  split
  · exact Nat.le_refl _
  · next start rest found =>
    have started := length_of_lineStart? found
    have inLine := bytesBefore_le character.toNat 0 rest
    unfold Bytes.runes
    omega

end TextPosition

end GrammarCompletion
