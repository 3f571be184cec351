import GrammarCompletion.Text.Rune

/-!
# Places in a grammar source

Lines and columns count from one, and columns count runes.
-/

namespace GrammarCompletion.Ebnf

structure Place where
  offset : Nat
  line : Nat
  column : Nat
  deriving DecidableEq, Inhabited

namespace Place

def start : Place := ⟨0, 1, 1⟩

def after (p : Place) (r : Rune) : Place :=
  if r.code = 0x0A then ⟨p.offset + r.width, p.line + 1, 1⟩
  else ⟨p.offset + r.width, p.line, p.column + 1⟩

end Place

/-- A place in a named source. A position without a place belongs to no source text. -/
structure Position where
  file : Bytes
  place : Option Place
  deriving DecidableEq, Inhabited

namespace Position

def nowhere : Position := ⟨[], none⟩

/-- `file:line:column`; a source without a name is called `<input>`. -/
def text (p : Position) : Bytes :=
  let file : Bytes := if p.file.isEmpty then "<input>" else p.file
  match p.place with
  | none => file
  | some place => file ++ ":" ++ Bytes.ofNat place.line ++ ":" ++ Bytes.ofNat place.column

end Position

structure Glyph where
  rune : Rune
  place : Place
  deriving Inhabited

namespace Glyph

def code (g : Glyph) : Nat := g.rune.code

def locate : Place → List Rune → List Glyph
  | _, [] => []
  | place, r :: rest => ⟨r, place⟩ :: locate (place.after r) rest

def endPlace (place : Place) (runes : List Rune) : Place := runes.foldl Place.after place

def text (glyphs : List Glyph) : Bytes := glyphs.flatMap fun g => g.rune.bytes

end Glyph

end GrammarCompletion.Ebnf
