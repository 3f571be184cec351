import GrammarCompletion.Ebnf.Place
import GrammarCompletion.Text.Letter
import GrammarCompletion.Text.Quoted

/-!
# Lexemes of a grammar source

A source is read as identifiers, numbers, quoted texts and single signs. White space and comments
stand between them. A quoted text that is not closed ends with its line, a raw text or a block
comment with the source.
-/

namespace GrammarCompletion.Ebnf

inductive LexemeKind where
  | endOfSource
  | identifier
  | integer
  | float
  | character
  | string
  | rawString
  /-- Any other character by its code point. -/
  | sign (code : Nat)
  deriving DecidableEq, Inhabited

namespace LexemeKind

def ofChar (c : Char) : LexemeKind := .sign c.toNat

def name : LexemeKind → Bytes
  | .endOfSource => "EOF"
  | .identifier => "Ident"
  | .integer => "Int"
  | .float => "Float"
  | .character => "Char"
  | .string => "String"
  | .rawString => "RawString"
  | .sign code => Quoted.quote (Bytes.ofCode code)

end LexemeKind

structure Lexeme where
  kind : LexemeKind
  text : Bytes
  place : Place
  deriving DecidableEq, Inhabited

namespace Lexeme

/-- A lexeme in an error text: a sign alone, other kinds with their text. -/
def describe (l : Lexeme) : Bytes :=
  match l.kind with
  | .sign _ => l.kind.name
  | _ => l.kind.name ++ " " ++ l.text

/-- The text between back quotes, without carriage returns. -/
def rawText (text : Bytes) : Bytes :=
  match text with
  | [] => []
  | _ :: rest =>
    if rest.getLast? = some 0x60 then rest.dropLast.filter (· ≠ 0x0D) else []

/-- The text a quoted or raw lexeme stands for; empty if it cannot be read. -/
def value (l : Lexeme) : Bytes :=
  match l.kind with
  | .rawString => rawText l.text
  | _ => (Quoted.unquote? l.text).getD []

end Lexeme

/-! ## How far a lexeme reaches

Each function gives the number of glyphs that belong to a lexeme behind those already read. -/

def isBlank (code : Nat) : Bool := code = 0x20 || code = 0x09 || code = 0x0A || code = 0x0D

def startsIdentifier (code : Nat) : Bool := code = 0x5F || Letter.isLetter code

def continuesIdentifier (code : Nat) : Bool := startsIdentifier code || Letter.isDigit code

def isDecimal (code : Nat) : Bool := 0x30 ≤ code && code ≤ 0x39

def isDecimalPart (code : Nat) : Bool := isDecimal code || code = 0x5F

def isHexPart (code : Nat) : Bool :=
  isDecimalPart code || (0x61 ≤ code && code ≤ 0x66) || (0x41 ≤ code && code ≤ 0x46)

def countWhile (p : Nat → Bool) (glyphs : List Glyph) : Nat :=
  (glyphs.takeWhile fun g => p g.code).length

def exponentLength : List Glyph → Nat
  | [] => 0
  | g :: rest =>
    if g.code = 0x65 || g.code = 0x45 || g.code = 0x70 || g.code = 0x50 then
      match rest with
      | [] => 1
      | s :: more =>
        if s.code = 0x2B || s.code = 0x2D then 2 + countWhile isDecimalPart more
        else 1 + countWhile isDecimalPart rest
    else 0

def fractionLength (isPart : Nat → Bool) (glyphs : List Glyph) : Nat :=
  let digits := countWhile isPart glyphs
  digits + exponentLength (glyphs.drop digits)

def baseMark (first : Nat) (rest : List Glyph) : Nat × (Nat → Bool) :=
  if first = 0x30 then
    match rest with
    | [] => (0, isDecimalPart)
    | g :: _ =>
      if g.code = 0x78 || g.code = 0x58 then (1, isHexPart)
      else if g.code = 0x6F || g.code = 0x4F || g.code = 0x62 || g.code = 0x42 then
        (1, isDecimalPart)
      else (0, isDecimalPart)
  else (0, isDecimalPart)

def number (first : Nat) (rest : List Glyph) : LexemeKind × Nat :=
  let (mark, isPart) := baseMark first rest
  let whole := mark + countWhile isPart (rest.drop mark)
  match rest.drop whole with
  | [] => (.integer, whole)
  | g :: more =>
    if g.code = 0x2E then (.float, whole + 1 + fractionLength isPart more)
    else
      let exponent := exponentLength (g :: more)
      (if exponent = 0 then .integer else .float, whole + exponent)

/-- A quoted text behind its opening mark, the closing mark or the end of line included. -/
def quotedLength (mark : Nat) : List Glyph → Nat
  | [] => 0
  | g :: rest =>
    if g.code = mark || g.code = 0x0A then 1
    else if g.code = 0x5C then
      match rest with
      | [] => 1
      | e :: more =>
        if e.code = mark || e.code = 0x5C then 2 + quotedLength mark more
        else 1 + quotedLength mark (e :: more)
    else 1 + quotedLength mark rest

def rawLength : List Glyph → Nat
  | [] => 0
  | g :: rest => if g.code = 0x60 then 1 else 1 + rawLength rest

def blockCommentLength : List Glyph → Nat
  | [] => 0
  | [_] => 1
  | g :: h :: rest =>
    if g.code = 0x2A && h.code = 0x2F then 2 else 1 + blockCommentLength (h :: rest)

/-- What stands at the front of a source, with the number of its glyphs behind the first. -/
inductive Piece where
  | blank (extra : Nat)
  | lexeme (kind : LexemeKind) (extra : Nat)

def firstPiece (g : Glyph) (rest : List Glyph) : Piece :=
  let code := g.code
  if isBlank code then .blank 0
  else if startsIdentifier code then .lexeme .identifier (countWhile continuesIdentifier rest)
  else if isDecimal code then
    let (kind, extra) := number code rest
    .lexeme kind extra
  else if code = 0x22 then .lexeme .string (quotedLength 0x22 rest)
  else if code = 0x27 then .lexeme .character (quotedLength 0x27 rest)
  else if code = 0x60 then .lexeme .rawString (rawLength rest)
  else
    match rest with
    | [] => .lexeme (.sign code) 0
    | next :: more =>
      if code = 0x2E && isDecimal next.code then .lexeme .float (fractionLength isDecimalPart rest)
      else if code = 0x2F && next.code = 0x2F then .blank (1 + countWhile (· ≠ 0x0A) more)
      else if code = 0x2F && next.code = 0x2A then .blank (1 + blockCommentLength more)
      else .lexeme (.sign code) 0

def lexemesOf (glyphs : List Glyph) : List Lexeme :=
  match glyphs with
  | [] => []
  | g :: rest =>
    match firstPiece g rest with
    | .blank extra => lexemesOf (rest.drop extra)
    | .lexeme kind extra =>
      ⟨kind, Glyph.text (g :: rest.take extra), g.place⟩ :: lexemesOf (rest.drop extra)
termination_by glyphs.length
decreasing_by all_goals simp only [List.length_cons, List.length_drop]; omega

/-- The glyphs of a source; a byte order mark in front is passed over. -/
def glyphsOf (source : Bytes) : List Glyph :=
  match Glyph.locate Place.start source.runes with
  | [] => []
  | g :: rest => if g.code = 0xFEFF then rest else g :: rest

def readLexemes (source : Bytes) : List Lexeme × Lexeme :=
  (lexemesOf (glyphsOf source), ⟨.endOfSource, [], Glyph.endPlace Place.start source.runes⟩)

end GrammarCompletion.Ebnf
