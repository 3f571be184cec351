import GrammarCompletion.Ebnf.Place

/-!
# EBNF productions

A production gives a name to an expression. Names and literals keep their positions, since errors
refer to them.
-/

namespace GrammarCompletion.Ebnf

structure Located where
  position : Position
  text : Bytes
  deriving DecidableEq, Inhabited

def Located.unplaced (text : Bytes) : Located := ⟨Position.nowhere, text⟩

inductive Expr where
  /-- A fixed text. -/
  | literal (text : Located)
  /-- A single character between two others, ends included. -/
  | range (first last : Located)
  /-- What the production with that name stands for. -/
  | name (name : Located)
  /-- One after the other. -/
  | sequence (items : List Expr)
  /-- One of several. -/
  | alternative (items : List Expr)
  | group (body : Expr)
  /-- Once or not at all. -/
  | option (body : Expr)
  /-- Any number of times. -/
  | repetition (body : Expr)
  deriving Inhabited

/-- A named expression; without one, the name stands for the empty text. -/
structure Production where
  name : Located
  body : Option Expr
  deriving Inhabited

abbrev Source := List Production

namespace Source

def find? (source : Source) (name : Bytes) : Option Production :=
  List.find? (fun p => p.name.text == name) source

def body? (source : Source) (name : Bytes) : Option Expr := (source.find? name).bind (·.body)

end Source

end GrammarCompletion.Ebnf
