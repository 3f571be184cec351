import GrammarCompletion.Proofs.Text.Decimal
import GrammarCompletion.Proofs.Text.Quoted

/-!
# Texts without control characters

Quoting writes a control character or a stray byte with printable ones, and a printable character has
no byte below the space in its encoding. So a quoted text can stand in a line between tabs, whatever it
quotes.
-/

namespace GrammarCompletion

/-- What a table covers is not below its ranges. -/
theorem CodeRange.le_of_covers {table : List CodeRange} {least code : Nat}
    (above : ∀ range ∈ table, least ≤ range.first) (covered : covers table code) : least ≤ code := by
  induction table with
  | nil => cases covered
  | cons range table ih =>
    have ⟨first, others⟩ := List.forall_mem_cons.mp above
    rw [covers] at covered
    split at covered
    · exact ih others covered
    · simp only [contains, Bool.and_eq_true, decide_eq_true_eq] at covered
      exact Nat.le_trans first covered.1.1

namespace Bytes

/-- No byte is a control character below the space, so there is neither a tab nor a line end. -/
def Plain (text : Bytes) : Prop := ∀ b ∈ text, 0x20 ≤ b

instance (text : Bytes) : Decidable text.Plain := List.decidableBAll (fun b => 0x20 ≤ b) text

variable {text front back : Bytes}

theorem Plain.append (h : front.Plain) (h' : back.Plain) : Plain (front ++ back) :=
  List.forall_mem_append.mpr ⟨h, h'⟩

theorem Plain.not_mem (h : text.Plain) {b : UInt8} (control : b < 0x20) : b ∉ text :=
  fun member => UInt8.not_le.mpr control (h b member)

theorem plain_flatMap {α : Type} {items : List α} {f : α → Bytes} (h : ∀ x ∈ items, (f x).Plain) :
    Plain (items.flatMap f) :=
  List.forall_mem_flatMap.mpr h

theorem mem_join {sep : Bytes} {parts : List Bytes} {b : UInt8} (h : b ∈ join sep parts) :
    b ∈ sep ∨ ∃ part ∈ parts, b ∈ part := by
  unfold join at h
  induction parts with
  | nil => cases h
  | cons part rest ih =>
    cases rest with
    | nil =>
      rw [List.intercalate_singleton] at h
      exact .inr ⟨part, List.mem_cons_self, h⟩
    | cons next rest =>
      rw [List.intercalate_cons_cons, List.mem_append, List.mem_append] at h
      rcases h with (first | between) | others
      · exact .inr ⟨part, List.mem_cons_self, first⟩
      · exact .inl between
      · rcases ih others with between | ⟨other, listed, member⟩
        · exact .inl between
        · exact .inr ⟨other, List.mem_cons_of_mem part listed, member⟩

theorem plain_join {sep : Bytes} (between : sep.Plain) {parts : List Bytes}
    (h : ∀ part ∈ parts, part.Plain) : (join sep parts).Plain := by
  intro b member
  rcases mem_join member with inside | ⟨part, listed, inside⟩
  · exact between b inside
  · exact h part listed b inside

theorem plain_utf8EncodeChar {c : Char} (h : 0x20 ≤ c.toNat) : Plain (String.utf8EncodeChar c) := by
  have byte : ∀ n, 0x20 ≤ n → n < 256 → (0x20 : UInt8) ≤ UInt8.ofNat n := by
    intro n low high
    rw [UInt8.le_iff_toNat_le, UInt8.toNat_ofNat_of_lt' high]
    exact low
  have low : 0x20 ≤ c.val.toNat := h
  unfold Plain String.utf8EncodeChar
  dsimp only
  -- All bytes of an encoding of more than one byte are above the first 128.
  split
  · simp only [List.forall_mem_cons]
    exact ⟨byte _ low (by omega), by simp⟩
  · split
    · simp only [List.forall_mem_cons]
      exact ⟨byte _ (by omega) (by omega), byte _ (by omega) (by omega), by simp⟩
    · split
      · simp only [List.forall_mem_cons]
        exact ⟨byte _ (by omega) (by omega), byte _ (by omega) (by omega),
          byte _ (by omega) (by omega), by simp⟩
      · simp only [List.forall_mem_cons]
        exact ⟨byte _ (by omega) (by omega), byte _ (by omega) (by omega),
          byte _ (by omega) (by omega), byte _ (by omega) (by omega), by simp⟩

theorem le_hexDigit : ∀ n < 16, 0x20 ≤ hexDigit n := by decide

theorem plain_hex (width n : Nat) : (hex width n).Plain := by
  induction width with
  | zero => exact List.forall_mem_nil _
  | succ width ih =>
    rw [hex_succ]
    exact List.forall_mem_cons.mpr ⟨le_hexDigit _ (Nat.mod_lt _ (by decide)), ih⟩

theorem plain_ofNat (n : Nat) : (ofNat n).Plain := by
  intro b member
  exact UInt8.le_trans (by decide) (digit_of_mem_ofNat member).1

theorem plain_ofInt (n : Int) : (ofInt n).Plain := by
  cases n with
  | ofNat n => exact plain_ofNat n
  | negSucc n => exact List.forall_mem_cons.mpr ⟨by decide, plain_ofNat (n + 1)⟩

end Bytes

namespace Quoted

theorem plain_escapeChar (c : Char) : (escapeChar c).Plain := by
  unfold escapeChar
  dsimp only
  split
  · next mark =>
    rcases mark with mark | mark
    · rw [mark]
      decide
    · rw [mark]
      decide
  · split
    · next printable =>
      have above : ∀ range ∈ Printable.printables, 0x20 ≤ range.first := by decide +kernel
      exact Bytes.plain_utf8EncodeChar (CodeRange.le_of_covers above printable)
    · split
      · next control letter found =>
        have letters : letterEscapes.all (fun pair => Bytes.Plain [backslash, pair.2]) = true := by decide
        exact of_decide_eq_true (List.all_eq_true.mp letters _ (List.mem_of_find?_eq_some found))
      · split
        · exact Bytes.Plain.append (by decide +kernel) (Bytes.plain_hex 2 _)
        · split
          · exact Bytes.Plain.append (by decide +kernel) (Bytes.plain_hex 4 _)
          · exact Bytes.Plain.append (by decide +kernel) (Bytes.plain_hex 8 _)

theorem plain_escape (text : Bytes) : (escape text).Plain := by
  apply Bytes.plain_flatMap
  intro r _
  cases r with
  | char c => exact plain_escapeChar c
  | stray b => exact Bytes.Plain.append (by decide +kernel) (Bytes.plain_hex 2 _)

end Quoted

namespace Vocabulary

theorem plain_literalName (text : Bytes) : (literalName text).Plain :=
  List.forall_mem_cons.mpr ⟨by decide, (Quoted.plain_escape text).append (by decide)⟩

theorem plain_displayName {v : Vocabulary} (literal : ∀ name ∈ v.literalNames, name.Plain)
    (symbolic : ∀ name ∈ v.symbolicNames, name.Plain) (t : Symbol) : (v.displayName t).Plain := by
  have found : ∀ {names : Array Bytes} {name : Bytes}, (∀ name ∈ names, name.Plain) →
      nameIn? names t = some name → name.Plain := by
    intro names name plain found
    unfold nameIn? at found
    split at found
    · cases found
    · split at found
      · next b rest listed =>
        cases found
        exact plain _ (Array.mem_of_getElem? listed)
      · cases found
  unfold displayName
  split
  · decide +kernel
  · split
    · decide +kernel
    · split
      · next name known => exact found symbolic known
      · split
        · next name known => exact found literal known
        · exact Bytes.plain_ofInt t.toInt

end Vocabulary

end GrammarCompletion
