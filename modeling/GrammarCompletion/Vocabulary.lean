import GrammarCompletion.IntervalSet.Basic
import GrammarCompletion.Text.Quoted

/-!
# Vocabularies

A vocabulary names token types. A literal name is the text a token always has, escaped and between
single quotes, as in `'\n'`; a symbolic name is that of a token production. An empty name is no
name.
-/

namespace GrammarCompletion

structure Vocabulary where
  literalNames : Array Bytes
  symbolicNames : Array Bytes
  deriving Inhabited

namespace Vocabulary

def empty : Vocabulary := ⟨#[], #[]⟩

def nameIn? (names : Array Bytes) (t : Symbol) : Option Bytes :=
  if t < 0 then none
  else
    match names[t.toInt.toNat]? with
    | some (b :: rest) => some (b :: rest)
    | _ => none

/-- The symbolic name of a type, else its literal name, else its number. The two marks have fixed
names. -/
def displayName (v : Vocabulary) (t : Symbol) : Bytes :=
  if t = Symbol.endOfInput then "<EOF>"
  else if t = Symbol.nothing then "<EPSILON>"
  else
    match nameIn? v.symbolicNames t with
    | some name => name
    | none =>
      match nameIn? v.literalNames t with
      | some name => name
      | none => Bytes.ofInt t.toInt

def typeIn? (names : Array Bytes) (name : Bytes) : Option Symbol :=
  if name.isEmpty then none
  else (names.toList.findIdx? (· == name)).map fun i => Int64.ofNat i

/-- The type with a symbolic or else a literal name; the end of input has two more names. -/
def type? (v : Vocabulary) (name : Bytes) : Option Symbol :=
  match typeIn? v.symbolicNames name with
  | some t => some t
  | none =>
    match typeIn? v.literalNames name with
    | some t => some t
    | none => if name = "EOF" ∨ name = "<EOF>" then some Symbol.endOfInput else none

def lookUp (v : Option Vocabulary) (name : Bytes) : Except Absent (Option Symbol) :=
  match v with
  | none => .error ⟨⟩
  | some v => .ok (v.type? name)

def apostrophe : UInt8 := 0x27

def literalName (text : Bytes) : Bytes := apostrophe :: Quoted.escape text ++ [apostrophe]

def literalText? : Bytes → Option Bytes
  | [] => none
  | b :: rest =>
    if b = apostrophe ∧ rest.getLast? = some apostrophe then Quoted.unescape? rest.dropLast else none

def literal? (v : Vocabulary) (t : Symbol) : Option Bytes :=
  if t < 0 then none
  else
    match v.literalNames[t.toInt.toNat]? with
    | some name => literalText? name
    | none => none

end Vocabulary

end GrammarCompletion
