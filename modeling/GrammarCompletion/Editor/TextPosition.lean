import GrammarCompletion.Text.Rune

/-!
# Positions in a text

An editor gives a position by its line and by the number of UTF-16 units before it in the line, both
from zero on. A position behind the end of its line stands for that end, and one behind the last
line for the end of the text.
-/

namespace GrammarCompletion

def Rune.units (r : Rune) : Nat := if r.code < 0x10000 then 1 else 2

namespace TextPosition

def nextLine? : Bytes → Option (Nat × Bytes)
  | [] => none
  | b :: rest =>
    if b = Bytes.newline then some (1, rest)
    else (nextLine? rest).map fun (n, more) => (n + 1, more)

def lineStart? : (line : Nat) → Bytes → Option (Nat × Bytes)
  | 0, text => some (0, text)
  | line + 1, text =>
    match nextLine? text with
    | none => none
    | some (n, rest) => (lineStart? line rest).map fun (m, more) => (n + m, more)

def bytesBefore : (units : Nat) → List Rune → Nat
  | _, [] => 0
  | units, r :: rest =>
    if r.code = 0x0A ∨ units < r.units then 0
    else r.width + bytesBefore (units - r.units) rest

/-- The byte offset of a position; a negative line or character counts as zero. -/
def offset (text : Bytes) (line character : Int) : Nat :=
  match lineStart? line.toNat text with
  | none => text.length
  | some (start, rest) => start + bytesBefore character.toNat rest.runes

end TextPosition

end GrammarCompletion
