import GrammarCompletion.Text.Rune
import GrammarCompletion.Text.Printable

/-!
# Quoted text

A quoted text stands between double quotes. Inside, the quote and the backslash have a backslash in
front, seven control characters have a letter (`\n`, `\t`, and so on), printable characters stand
for themselves, and everything else is written in hexadecimal: `\x` for control characters and
stray bytes, `\u` and `\U` for other characters. Reading accepts more: any character but the quote
and the newline may stand for itself, and a byte may be written as three octal digits.
-/

namespace GrammarCompletion.Quoted

def quoteMark : UInt8 := 0x22
def backslash : UInt8 := 0x5C

def letterEscapes : List (UInt8 × UInt8) :=
  [(0x07, 0x61), (0x08, 0x62), (0x0C, 0x66), (0x0A, 0x6E), (0x0D, 0x72), (0x09, 0x74), (0x0B, 0x76)]

def escapeChar (c : Char) : Bytes :=
  let code := c.toNat
  if code = 0x22 ∨ code = 0x5C then [backslash, code.toUInt8]
  else if Printable.isPrintable code then String.utf8EncodeChar c
  else
    match letterEscapes.find? (·.1.toNat = code) with
    | some (_, letter) => [backslash, letter]
    | none =>
      if code < 0x20 ∨ code = 0x7F then "\\x" ++ Bytes.hex 2 code
      else if code < 0x10000 then "\\u" ++ Bytes.hex 4 code
      else "\\U" ++ Bytes.hex 8 code

def escapeRune : Rune → Bytes
  | .char c => escapeChar c
  | .stray b => "\\x" ++ Bytes.hex 2 b.toNat

def escape (text : Bytes) : Bytes := text.runes.flatMap escapeRune

def quote (text : Bytes) : Bytes := quoteMark :: escape text ++ [quoteMark]

def readDigits (base : Nat) : (count : Nat) → (acc : Nat) → Bytes → Option (Nat × Bytes)
  | 0, acc, rest => some (acc, rest)
  | _ + 1, _, [] => none
  | count + 1, acc, b :: rest =>
    match Bytes.hexValue? b with
    | none => none
    | some d => if d < base then readDigits base count (acc * base + d) rest else none

def readEscape : Bytes → Option (Bytes × Bytes)
  | [] => none
  | b :: rest =>
    if b = quoteMark ∨ b = backslash then some ([b], rest)
    else if b = 0x78 then (readDigits 16 2 0 rest).map fun (v, rest) => ([v.toUInt8], rest)
    else if b = 0x75 ∨ b = 0x55 then
      match readDigits 16 (if b = 0x75 then 4 else 8) 0 rest with
      | none => none
      | some (v, rest) => if v.isValidChar then some (Bytes.ofCode v, rest) else none
    else if 0x30 ≤ b ∧ b ≤ 0x37 then
      match readDigits 8 3 0 (b :: rest) with
      | none => none
      | some (v, rest) => if v < 256 then some ([v.toUInt8], rest) else none
    else
      match letterEscapes.find? (·.2 = b) with
      | none => none
      | some (control, _) => some ([control], rest)

/-- One element of the inside of a quoted text: the bytes it denotes and what follows. A stray byte
denotes the replacement character. -/
def readElement : Bytes → Option (Bytes × Bytes)
  | [] => none
  | b :: rest =>
    if b = quoteMark ∨ b = Bytes.newline then none
    else if b = backslash then readEscape rest
    else if b < 0x80 then some ([b], rest)
    else
      let rune := Rune.first b rest
      some (Bytes.ofCode rune.code, rest.drop (rune.width - 1))

theorem readDigits_length {base count acc : Nat} {text rest : Bytes} {v : Nat}
    (h : readDigits base count acc text = some (v, rest)) :
    rest.length ≤ text.length := by
  induction count generalizing acc text with
  | zero =>
    simp only [readDigits, Option.some.injEq, Prod.mk.injEq] at h
    exact h.2 ▸ Nat.le_refl _
  | succ count ih =>
    cases text with
    | nil => simp [readDigits] at h
    | cons b tail =>
      simp only [readDigits] at h
      split at h
      · contradiction
      · split at h
        · exact Nat.le_succ_of_le (ih h)
        · contradiction

theorem readEscape_length {text value rest : Bytes}
    (h : readEscape text = some (value, rest)) : rest.length ≤ text.length := by
  cases text with
  | nil => simp [readEscape] at h
  | cons b tail =>
    simp only [readEscape] at h
    split at h
    · simp only [Option.some.injEq, Prod.mk.injEq] at h
      simp [← h.2]
    split at h
    · obtain ⟨⟨v, r⟩, hread, heq⟩ := Option.map_eq_some_iff.1 h
      have bound := readDigits_length hread
      simp only [Prod.mk.injEq] at heq
      simp only [List.length_cons, ← heq.2]
      omega
    split at h
    · split at h
      · contradiction
      · rename_i hread
        have bound := readDigits_length hread
        split at h
        · simp only [Option.some.injEq, Prod.mk.injEq] at h
          simp only [List.length_cons, ← h.2]
          omega
        · contradiction
    split at h
    · split at h
      · contradiction
      · rename_i hread
        have bound := readDigits_length hread
        split at h
        · simp only [Option.some.injEq, Prod.mk.injEq] at h
          rw [← h.2]
          exact bound
        · contradiction
    · split at h
      · contradiction
      · simp only [Option.some.injEq, Prod.mk.injEq] at h
        simp [← h.2]

theorem readElement_length {text value rest : Bytes}
    (h : readElement text = some (value, rest)) : rest.length < text.length := by
  cases text with
  | nil => simp [readElement] at h
  | cons b tail =>
    simp only [readElement] at h
    split at h
    · contradiction
    split at h
    · exact Nat.lt_succ_of_le (readEscape_length h)
    split at h
    · simp only [Option.some.injEq, Prod.mk.injEq] at h
      simp [← h.2]
    · simp only [Option.some.injEq, Prod.mk.injEq] at h
      simp only [← h.2, List.length_drop, List.length_cons]
      omega

def unescape? (body : Bytes) : Option Bytes :=
  if body.isEmpty then some []
  else
    match _read : readElement body with
    | none => none
    | some (value, rest) => (unescape? rest).map (value ++ ·)
termination_by body.length
decreasing_by exact readElement_length _read

def unquote? : Bytes → Option Bytes
  | [] => none
  | b :: rest =>
    if b = quoteMark ∧ rest.getLast? = some quoteMark then unescape? rest.dropLast else none

end GrammarCompletion.Quoted
