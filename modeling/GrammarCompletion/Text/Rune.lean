import GrammarCompletion.Text.Bytes

/-!
# Reading a text rune by rune

A text is read as UTF-8 from left to right. Where the bytes at hand encode a character, the next
rune is that character; where they do not, it is the single byte at hand, and reading goes on
behind it. So the runes of a text always spell out the text again.
-/

namespace GrammarCompletion

/-- One step of reading: a character, or a byte that starts no valid encoding. -/
inductive Rune where
  | char (c : Char)
  | stray (b : UInt8)
  deriving DecidableEq, Inhabited

namespace Rune

/-- The code point; a stray byte stands for the replacement character. -/
def code : Rune → Nat
  | .char c => c.toNat
  | .stray _ => 0xFFFD

def bytes : Rune → Bytes
  | .char c => String.utf8EncodeChar c
  | .stray b => [b]

def width : Rune → Nat
  | .char c => c.utf8Size
  | .stray _ => 1

def isChar : Rune → Bool
  | .char _ => true
  | .stray _ => false

/-- The rune at the front of `b :: rest`; an encoding has at most four bytes. -/
def first (b : UInt8) (rest : Bytes) : Rune :=
  match (b :: rest.take 3).toByteArray.utf8DecodeChar? 0 with
  | some c => .char c
  | none => .stray b

end Rune

namespace Bytes

/-- The runes of a text whose first `skip` bytes belong to a rune already read. -/
def runesAfter : (skip : Nat) → Bytes → List Rune
  | _, [] => []
  | skip + 1, _ :: rest => runesAfter skip rest
  | 0, b :: rest =>
    let rune := Rune.first b rest
    rune :: runesAfter (rune.width - 1) rest

def runes (text : Bytes) : List Rune := runesAfter 0 text

def firstRune? : Bytes → Option Rune
  | [] => none
  | b :: rest => some (Rune.first b rest)

def isUtf8 (text : Bytes) : Bool := text.runes.all Rune.isChar

/-- The UTF-8 form of a code point; a number that is none gives the replacement character. -/
def ofCode (code : Nat) : Bytes :=
  if h : code.isValidChar then String.utf8EncodeChar (Char.ofNatAux code h)
  else String.utf8EncodeChar (Char.ofNat 0xFFFD)

end Bytes

/-!
## Tables of code points

A property of code points is listed as ascending ranges. Alternating runs, where every second code
point has the property, are one range with step two.
-/

/-- The code points `first`, `first + step`, and so on up to `last`. -/
structure CodeRange where
  first : Nat
  last : Nat
  step : Nat
  deriving DecidableEq

namespace CodeRange

def contains (range : CodeRange) (code : Nat) : Bool :=
  range.first ≤ code && code ≤ range.last && (code - range.first) % range.step == 0

/-- Whether a code point is in one of the ranges of an ascending table. The search ends at the
first range that reaches the code point. -/
def covers : List CodeRange → Nat → Bool
  | [], _ => false
  | range :: table, code =>
    if range.last < code then covers table code else range.contains code

end CodeRange

end GrammarCompletion
