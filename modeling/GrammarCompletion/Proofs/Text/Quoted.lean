import GrammarCompletion.Vocabulary
import Mathlib.Algebra.Group.Nat.Defs

/-!
# Quoted text and back

The runes of a text spell out the text, and each rune is read back from its quoted form, whatever
follows. So quoting loses no byte: control characters, stray bytes and the marks themselves included.
-/

namespace GrammarCompletion

/-! ## Runes -/

namespace Rune

/-- The rune at the front of a text is spelled by its first bytes. -/
theorem bytes_first_append (b : UInt8) (rest : Bytes) :
    (first b rest).bytes ++ rest.drop ((first b rest).width - 1) = b :: rest := by
  unfold first
  split
  · next c decoded =>
    obtain ⟨more, spelled⟩ := ByteArray.exists_of_utf8DecodeChar?_eq_some decoded
    have front : b :: rest.take 3 = String.utf8EncodeChar c ++ more.data.toList := by
      simpa using congrArg (fun bytes => bytes.data.toList) spelled
    have whole : b :: rest = String.utf8EncodeChar c ++ (more.data.toList ++ rest.drop 3) := by
      rw [← List.append_assoc, ← front, List.cons_append, List.take_append_drop]
    have behind : rest.drop (c.utf8Size - 1) = (b :: rest).drop c.utf8Size := by
      obtain ⟨n, size⟩ := Nat.exists_eq_succ_of_ne_zero (Nat.ne_of_gt c.utf8Size_pos)
      simp [size]
    show String.utf8EncodeChar c ++ rest.drop (c.utf8Size - 1) = b :: rest
    rw [behind, whole, ← String.length_utf8EncodeChar c, List.drop_left]
  · rfl

theorem first_of_utf8EncodeChar {c : Char} {b : UInt8} {tail : Bytes} (rest : Bytes)
    (text : b :: tail = String.utf8EncodeChar c ++ rest) : first b tail = .char c := by
  have front : b :: tail.take 3 = String.utf8EncodeChar c ++ rest.take (4 - c.utf8Size) := by
    have four : b :: tail.take 3 = (b :: tail).take 4 := rfl
    have size := c.utf8Size_le_four
    rw [four, text, List.take_append, String.length_utf8EncodeChar, List.take_of_length_le]
    rwa [String.length_utf8EncodeChar]
  unfold first
  rw [front, List.toByteArray_append, ByteArray.utf8DecodeChar?_utf8EncodeChar_append]

end Rune

namespace Bytes

theorem flatMap_bytes_runesAfter (skip : Nat) (text : Bytes) :
    (text.runesAfter skip).flatMap Rune.bytes = text.drop skip := by
  induction text generalizing skip with
  | nil => simp [runesAfter]
  | cons b rest ih =>
    cases skip with
    | zero =>
      rw [runesAfter, List.flatMap_cons, ih, Rune.bytes_first_append]
      rfl
    | succ skip =>
      rw [runesAfter, ih]
      rfl

theorem flatMap_bytes_runes (text : Bytes) : text.runes.flatMap Rune.bytes = text :=
  flatMap_bytes_runesAfter 0 text

theorem utf8EncodeChar_of_lt {c : Char} (ascii : c.toNat < 0x80) :
    String.utf8EncodeChar c = [c.toNat.toUInt8] := by
  have size : c.utf8Size = 1 := by
    rw [Char.utf8Size_eq_one_iff, UInt32.le_iff_toNat_le]
    exact Nat.le_of_lt_succ ascii
  rw [String.utf8EncodeChar_eq_singleton size]
  rfl

/-- A character above the first 128 begins with a byte above them. -/
theorem ascii_of_first_byte {c : Char} {b : UInt8} {tail : Bytes}
    (spelled : String.utf8EncodeChar c = b :: tail) (low : b < 0x80) : c.toNat < 0x80 := by
  have code : b.toNat < 0x80 := low
  have valid : b.toNat.isValidChar := .inl (by omega)
  have value : (Char.ofNat b.toNat).toNat = b.toNat := by
    rw [Char.ofNat, dif_pos valid]
    rfl
  have ascii : (Char.ofNat b.toNat).toNat < 0x80 := value.symm ▸ code
  have alone := utf8EncodeChar_of_lt ascii
  rw [value, Nat.toUInt8_eq, UInt8.ofNat_toNat] at alone
  -- The byte alone is a character, and reading it from the longer text gives both.
  have short : Rune.first b tail = .char (Char.ofNat b.toNat) :=
    Rune.first_of_utf8EncodeChar tail (by rw [alone]; rfl)
  have long : Rune.first b tail = .char c :=
    Rune.first_of_utf8EncodeChar [] (by rw [List.append_nil, spelled])
  cases short.symm.trans long
  exact ascii

theorem ofCode_toNat (c : Char) : ofCode c.toNat = String.utf8EncodeChar c := by
  have valid : c.toNat.isValidChar := c.valid
  rw [ofCode, dif_pos valid]
  rfl

theorem hex_zero (n : Nat) : hex 0 n = [] := rfl

theorem hex_succ (count n : Nat) :
    hex (count + 1) n = hexDigit (n / 16 ^ count % 16) :: hex count n := rfl

theorem hexValue?_hexDigit : ∀ d < 16, hexValue? (hexDigit d) = some d := by decide

end Bytes

/-! ## Elements of a quoted text -/

namespace Quoted

theorem readDigits_hex (count acc n : Nat) (rest : Bytes) :
    readDigits 16 count acc (Bytes.hex count n ++ rest) =
      some (acc * 16 ^ count + n % 16 ^ count, rest) := by
  induction count generalizing acc with
  | zero => simp [readDigits, Bytes.hex_zero, Nat.mod_one]
  | succ count ih =>
    have digit : n / 16 ^ count % 16 < 16 := Nat.mod_lt _ (by decide)
    rw [Bytes.hex_succ, List.cons_append, readDigits, Bytes.hexValue?_hexDigit _ digit]
    simp only [if_pos digit]
    rw [ih, Nat.mod_pow_succ, Nat.add_mul, Nat.pow_succ', Nat.mul_assoc,
      Nat.mul_comm (n / 16 ^ count % 16)]
    simp only [Option.some.injEq, Prod.mk.injEq, and_true]
    omega

theorem readEscape_byte {n : Nat} (small : n < 256) (rest : Bytes) :
    readEscape (0x78 :: (Bytes.hex 2 n ++ rest)) = some ([n.toUInt8], rest) := by
  have read := readDigits_hex 2 0 n rest
  rw [Nat.zero_mul, Nat.zero_add, Nat.mod_eq_of_lt (by omega)] at read
  simp only [readEscape, read]
  rfl

theorem readEscape_code {mark : UInt8} {digits : Nat} {c : Char}
    (form : mark = 0x75 ∧ digits = 4 ∨ mark = 0x55 ∧ digits = 8) (fits : c.toNat < 16 ^ digits)
    (rest : Bytes) :
    readEscape (mark :: (Bytes.hex digits c.toNat ++ rest)) =
      some (String.utf8EncodeChar c, rest) := by
  have valid : c.toNat.isValidChar := c.valid
  have read := readDigits_hex digits 0 c.toNat rest
  rw [Nat.zero_mul, Nat.zero_add, Nat.mod_eq_of_lt fits] at read
  rcases form with ⟨rfl, rfl⟩ | ⟨rfl, rfl⟩
  · simp [readEscape, read, valid, Bytes.ofCode_toNat, quoteMark, backslash]
  · simp [readEscape, read, valid, Bytes.ofCode_toNat, quoteMark, backslash]

theorem readEscape_letter {control letter : UInt8} (listed : (control, letter) ∈ letterEscapes)
    (rest : Bytes) :
    control.toNat < 0x80 ∧ readEscape (letter :: rest) = some ([control], rest) := by
  simp only [letterEscapes, List.mem_cons, Prod.mk.injEq, List.not_mem_nil, or_false] at listed
  rcases listed with ⟨rfl, rfl⟩ | ⟨rfl, rfl⟩ | ⟨rfl, rfl⟩ | ⟨rfl, rfl⟩ | ⟨rfl, rfl⟩ | ⟨rfl, rfl⟩ |
    ⟨rfl, rfl⟩ <;> exact ⟨by decide, rfl⟩

/-- A character that needs no escape stands for itself. -/
theorem readElement_char {c : Char} (quote : c.toNat ≠ 0x22) (slash : c.toNat ≠ 0x5C)
    (line : c.toNat ≠ 0x0A) (rest : Bytes) :
    readElement (String.utf8EncodeChar c ++ rest) = some (String.utf8EncodeChar c, rest) := by
  by_cases ascii : c.toNat < 0x80
  · have spelled := Bytes.utf8EncodeChar_of_lt ascii
    have code : c.toNat.toUInt8.toNat = c.toNat := by
      rw [Nat.toUInt8_eq, UInt8.toNat_ofNat']
      omega
    rw [spelled, List.singleton_append, readElement, if_neg, if_neg, if_pos]
    · rwa [UInt8.lt_iff_toNat_lt, code]
    · rwa [← UInt8.toNat_inj, code]
    · rw [not_or, ← UInt8.toNat_inj, ← UInt8.toNat_inj, code]
      exact ⟨quote, line⟩
  · obtain ⟨b, tail, spelled⟩ := List.exists_cons_of_length_pos
      (l := String.utf8EncodeChar c) (by rw [String.length_utf8EncodeChar]; exact c.utf8Size_pos)
    have high : ¬ b < 0x80 := fun low => ascii (Bytes.ascii_of_first_byte spelled low)
    have first : Rune.first b (tail ++ rest) = .char c :=
      Rune.first_of_utf8EncodeChar rest (by rw [spelled]; rfl)
    have width : tail.length = c.utf8Size - 1 := by
      rw [← String.length_utf8EncodeChar, spelled]
      rfl
    rw [spelled, List.cons_append, readElement, if_neg, if_neg, if_neg high]
    · simp only [first, Rune.code, Rune.width, Bytes.ofCode_toNat, ← width, List.drop_left, spelled]
    · rintro rfl
      exact high (by decide)
    · rintro (rfl | rfl)
      · exact high (by decide)
      · exact high (by decide)

/-- Every character is read back from its quoted form. -/
theorem readElement_escapeChar (c : Char) (rest : Bytes) :
    readElement (escapeChar c ++ rest) = some (String.utf8EncodeChar c, rest) := by
  unfold escapeChar
  dsimp only
  split
  · next mark =>
    have ascii : c.toNat < 0x80 := by omega
    rw [Bytes.utf8EncodeChar_of_lt ascii]
    rcases mark with mark | mark
    · rw [mark]
      rfl
    · rw [mark]
      rfl
  · next plain =>
    rw [not_or] at plain
    split
    · next printable =>
      apply readElement_char plain.1 plain.2
      intro line
      rw [line] at printable
      exact absurd printable (by decide)
    · split
      · next control letter found =>
        have code : control.toNat = c.toNat := by simpa using List.find?_some found
        obtain ⟨ascii, read⟩ := readEscape_letter (List.mem_of_find?_eq_some found) rest
        rw [code] at ascii
        rw [Bytes.utf8EncodeChar_of_lt ascii, ← code, Nat.toUInt8_eq, UInt8.ofNat_toNat]
        exact read
      · split
        · next control =>
          have ascii : c.toNat < 0x80 := by omega
          rw [Bytes.utf8EncodeChar_of_lt ascii]
          exact readEscape_byte (by omega) rest
        · split
          · next small => exact readEscape_code (.inl ⟨rfl, rfl⟩) (by simpa using small) rest
          · have valid : c.toNat.isValidChar := c.valid
            unfold Nat.isValidChar at valid
            exact readEscape_code (.inr ⟨rfl, rfl⟩) (by omega) rest

theorem readElement_escapeRune (r : Rune) (rest : Bytes) :
    readElement (escapeRune r ++ rest) = some (r.bytes, rest) := by
  cases r with
  | char c => exact readElement_escapeChar c rest
  | stray b =>
    have read := readEscape_byte b.toNat_lt rest
    rw [Nat.toUInt8_eq, UInt8.ofNat_toNat] at read
    exact read

/-! ## Whole texts -/

theorem unescape?_of_readElement {body value rest : Bytes}
    (read : readElement body = some (value, rest)) :
    unescape? body = (unescape? rest).map (value ++ ·) := by
  have more : body.isEmpty = false := by
    cases body with
    | nil => cases read
    | cons b body => rfl
  rw [unescape?, more]
  split
  · contradiction
  · split
    · next failed => cases failed.symm.trans read
    · next found =>
      cases found.symm.trans read
      rfl

theorem unescape?_flatMap_escapeRune (runes : List Rune) :
    unescape? (runes.flatMap escapeRune) = some (runes.flatMap Rune.bytes) := by
  induction runes with
  | nil =>
    rw [List.flatMap_nil, unescape?]
    rfl
  | cons r runes ih =>
    rw [List.flatMap_cons, unescape?_of_readElement (readElement_escapeRune r _), ih]
    rfl

/-- Quoting a text loses nothing. -/
theorem unescape?_escape (text : Bytes) : unescape? (escape text) = some text := by
  rw [escape, unescape?_flatMap_escapeRune, Bytes.flatMap_bytes_runes]

end Quoted

theorem Vocabulary.literalText?_literalName (text : Bytes) :
    literalText? (literalName text) = some text := by
  rw [literalName, List.cons_append, literalText?, if_pos ⟨rfl, by simp⟩, List.dropLast_concat,
    Quoted.unescape?_escape]

end GrammarCompletion
