import GrammarCompletion.Text.Bytes

/-!
# Numbers in texts

A number is spelled with digits and at most a minus sign, and no two numbers are spelled alike. Where a
separator that is not among these bytes stands between numbers, a text can therefore be taken apart
again: what stands before the first separator is determined by the text.
-/

namespace GrammarCompletion.Bytes

/-- The bytes that numbers are spelled with. -/
def IsNumeral (b : UInt8) : Prop := b = 0x2D ∨ 0x30 ≤ b ∧ b ≤ 0x39

instance (b : UInt8) : Decidable (IsNumeral b) := inferInstanceAs (Decidable (_ ∨ _))

theorem ofNat_eq_flatMap (n : Nat) : ofNat n = (Nat.toDigits 10 n).flatMap String.utf8EncodeChar := by
  simp [ofNat, ofString, Nat.repr, List.utf8Encode, List.data_toByteArray]

theorem digit_of_mem_ofNat {n : Nat} {b : UInt8} (h : b ∈ ofNat n) : 0x30 ≤ b ∧ b ≤ 0x39 := by
  rw [ofNat_eq_flatMap, List.mem_flatMap] at h
  obtain ⟨c, digit, encoded⟩ := h
  have isDigit := Nat.isDigit_of_mem_toDigits (by decide) (by decide) digit
  rw [Char.isDigit, Bool.and_eq_true, decide_eq_true_eq, decide_eq_true_eq] at isDigit
  have low : 0x30 ≤ c.val.toNat := isDigit.1
  have high : c.val.toNat ≤ 0x39 := isDigit.2
  -- a digit is encoded as one byte
  have single : String.utf8EncodeChar c = [UInt8.ofNat c.val.toNat] := by
    rw [String.utf8EncodeChar]
    exact if_pos (by omega)
  rw [single, List.mem_singleton] at encoded
  have value : (UInt8.ofNat c.val.toNat).toNat = c.val.toNat :=
    UInt8.toNat_ofNat_of_lt' (Nat.lt_of_le_of_lt high (by decide))
  rw [encoded, UInt8.le_iff_toNat_le, UInt8.le_iff_toNat_le, value]
  exact ⟨low, high⟩

theorem isNumeral_of_mem_ofInt {n : Int} {b : UInt8} (h : b ∈ ofInt n) : IsNumeral b := by
  cases n with
  | ofNat n => exact .inr (digit_of_mem_ofNat h)
  | negSucc n =>
    rcases List.mem_cons.mp h with sign | digit
    · exact .inl sign
    · exact .inr (digit_of_mem_ofNat digit)

theorem not_mem_ofInt {b : UInt8} (other : ¬ IsNumeral b) (n : Int) : b ∉ ofInt n :=
  fun member => other (isNumeral_of_mem_ofInt member)

theorem ofNat_inj {n m : Nat} : ofNat n = ofNat m ↔ n = m := by
  refine ⟨fun same => ?_, congrArg ofNat⟩
  have spelled : Nat.repr n = Nat.repr m := by
    rw [← String.toByteArray_inj]
    exact ByteArray.ext (Array.toList_inj.mp same)
  have digits : Nat.toDigits 10 n = Nat.toDigits 10 m := by
    rw [← Nat.toList_repr, ← Nat.toList_repr, spelled]
  calc
    n = Nat.ofDigitChars 10 (Nat.toDigits 10 n) 0 := Nat.ofDigitChars_ten_toDigits.symm
    _ = Nat.ofDigitChars 10 (Nat.toDigits 10 m) 0 := by rw [digits]
    _ = m := Nat.ofDigitChars_ten_toDigits

theorem ofNat_ne_minus (n m : Nat) : ofNat n ≠ ofAscii '-' :: ofNat m := by
  intro same
  have digit : 0x30 ≤ ofAscii '-' ∧ ofAscii '-' ≤ 0x39 := by
    apply digit_of_mem_ofNat (n := n)
    rw [same]
    exact List.mem_cons_self
  exact absurd digit.1 (by decide)

theorem ofInt_inj {n m : Int} : ofInt n = ofInt m ↔ n = m := by
  refine ⟨fun same => ?_, congrArg ofInt⟩
  cases n with
  | ofNat n =>
    cases m with
    | ofNat m => exact congrArg Int.ofNat (ofNat_inj.mp same)
    | negSucc m => exact absurd same (ofNat_ne_minus n (m + 1))
  | negSucc n =>
    cases m with
    | ofNat m => exact absurd same.symm (ofNat_ne_minus m (n + 1))
    | negSucc m =>
      have digits : n + 1 = m + 1 := ofNat_inj.mp (List.tail_eq_of_cons_eq same)
      exact congrArg Int.negSucc (Nat.succ.inj digits)

theorem ofInt_ne_nil (n : Int) : ofInt n ≠ [] := by
  cases n with
  | ofNat n =>
    show ofNat n ≠ []
    rw [ofNat_eq_flatMap, Ne, List.flatMap_eq_nil_iff]
    intro blank
    obtain ⟨c, digit⟩ := List.exists_mem_of_ne_nil _ (Nat.toDigits_ne_nil (n := n) (b := 10))
    exact String.utf8EncodeChar_ne_nil (blank c digit)
  | negSucc n => exact List.cons_ne_nil _ _

/-! ## Separators -/

def StartsWith (sep : UInt8) (text : Bytes) : Prop := text = [] ∨ ∃ rest, text = sep :: rest

/-- What stands before the first separator is determined by the whole text. -/
theorem append_inj_of_startsWith {sep : UInt8} {u u' v v' : Bytes} (free : sep ∉ u) (free' : sep ∉ u')
    (starts : StartsWith sep v) (starts' : StartsWith sep v') (same : u ++ v = u' ++ v') :
    u = u' ∧ v = v' := by
  have before : ∀ {u v : Bytes}, sep ∉ u → StartsWith sep v → (u ++ v).takeWhile (· ≠ sep) = u := by
    intro u v free starts
    have kept : ∀ b ∈ u, decide (b ≠ sep) = true := by
      intro b member
      exact decide_eq_true fun here => free (here ▸ member)
    rw [List.takeWhile_append_of_pos kept]
    rcases starts with rfl | ⟨rest, rfl⟩
    · simp
    · simp
  have first : u = u' := by rw [← before free starts, same, before free' starts']
  subst first
  exact ⟨rfl, List.append_cancel_left same⟩

/-- Each part behind the first one follows a separator. -/
theorem join_cons (sep part : Bytes) (rest : List Bytes) :
    join sep (part :: rest) = part ++ rest.flatMap (sep ++ ·) := by
  unfold join
  induction rest generalizing part with
  | nil => simp
  | cons next rest ih =>
    rw [List.intercalate_cons_cons, ih, List.flatMap_cons, List.append_assoc, List.append_assoc]

section
variable {b : UInt8} {sep : Bytes}

theorem startsWith_flatMap (parts : List Bytes) : StartsWith b (parts.flatMap (b :: sep ++ ·)) := by
  cases parts with
  | nil => exact .inl rfl
  | cons part rest => exact .inr ⟨_, rfl⟩

theorem flatMap_inj {parts parts' : List Bytes} (free : ∀ part ∈ parts, b ∉ part)
    (free' : ∀ part ∈ parts', b ∉ part)
    (same : parts.flatMap (b :: sep ++ ·) = parts'.flatMap (b :: sep ++ ·)) : parts = parts' := by
  induction parts generalizing parts' with
  | nil =>
    cases parts' with
    | nil => rfl
    | cons part' rest' => cases same
  | cons part rest ih =>
    cases parts' with
    | nil => cases same
    | cons part' rest' =>
      rw [List.forall_mem_cons] at free free'
      rw [List.flatMap_cons, List.flatMap_cons, List.append_assoc, List.append_assoc] at same
      obtain ⟨first, others⟩ := append_inj_of_startsWith free.1 free'.1 (startsWith_flatMap rest)
        (startsWith_flatMap rest') (List.append_cancel_left same)
      rw [first, ih free.2 free'.2 others]

/-- Parts that are not empty can be told from what is joined, if the first byte of the separator is in
none of them. -/
theorem join_inj {parts parts' : List Bytes} (free : ∀ part ∈ parts, b ∉ part)
    (free' : ∀ part ∈ parts', b ∉ part) (filled : [] ∉ parts) (filled' : [] ∉ parts')
    (same : join (b :: sep) parts = join (b :: sep) parts') : parts = parts' := by
  have front : ∀ {part : Bytes} {rest : List Bytes}, [] ∉ part :: rest →
      join (b :: sep) (part :: rest) ≠ join (b :: sep) [] := by
    intro part rest filled empty
    rw [join_cons] at empty
    exact filled ((List.append_eq_nil_iff.mp empty).1 ▸ List.mem_cons_self)
  cases parts with
  | nil =>
    cases parts' with
    | nil => rfl
    | cons part' rest' => exact absurd same.symm (front filled')
  | cons part rest =>
    cases parts' with
    | nil => exact absurd same (front filled)
    | cons part' rest' =>
      rw [List.forall_mem_cons] at free free'
      rw [join_cons, join_cons] at same
      obtain ⟨first, others⟩ := append_inj_of_startsWith free.1 free'.1 (startsWith_flatMap rest)
        (startsWith_flatMap rest') same
      rw [first, flatMap_inj free.2 free'.2 others]

end

end GrammarCompletion.Bytes
