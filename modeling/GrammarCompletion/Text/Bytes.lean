/-!
# Byte texts

Every text the library reads or writes is a list of bytes. Sources, names and documents come from
outside and need not be valid UTF-8, so no operation may assume it. A string literal coerces to
the bytes of its UTF-8 form.
-/

namespace GrammarCompletion

/-- A text: its bytes in order, not necessarily valid UTF-8. -/
abbrev Bytes := List UInt8

namespace Bytes

def ofString (s : String) : Bytes := s.toUTF8.data.toList

instance : Coe String Bytes := ⟨ofString⟩

def newline : UInt8 := 0x0A

def ofAscii (c : Char) : UInt8 := c.toNat.toUInt8

def ofNat (n : Nat) : Bytes := ofString (Nat.repr n)

def ofInt : Int → Bytes
  | .ofNat n => ofNat n
  | .negSucc n => ofAscii '-' :: ofNat (n + 1)

def join (sep : Bytes) (parts : List Bytes) : Bytes := sep.intercalate parts

def hexDigit (n : Nat) : UInt8 :=
  if n < 10 then (n + 0x30).toUInt8 else (n + 0x57).toUInt8

def hex : (width : Nat) → Nat → Bytes
  | 0, _ => []
  | width + 1, n => hexDigit (n / 16 ^ width % 16) :: hex width n

def hexValue? (b : UInt8) : Option Nat :=
  let n := b.toNat
  if 0x30 ≤ n ∧ n ≤ 0x39 then some (n - 0x30)
  else if 0x61 ≤ n ∧ n ≤ 0x66 then some (n - 0x57)
  else if 0x41 ≤ n ∧ n ≤ 0x46 then some (n - 0x37)
  else none

/-- Texts in ascending order of their bytes; equal texts keep their order. -/
def sort (texts : List Bytes) : List Bytes :=
  texts.mergeSort fun a b => decide (¬ b < a)

def indexOf? (part : Bytes) : Bytes → Option Nat
  | [] => if part.isEmpty then some 0 else none
  | b :: rest =>
    if part.isPrefixOf (b :: rest) then some 0
    else (indexOf? part rest).map (· + 1)

end Bytes

end GrammarCompletion
