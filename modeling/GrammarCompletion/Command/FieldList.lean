import GrammarCompletion.Text.Bytes

/-!
# Comma-separated fields

A field that starts with a quote goes up to the next single quote mark and may hold commas; a quote
inside it is written twice.
-/

namespace GrammarCompletion.FieldList

inductive Fault where
  /-- A quote in a field that does not start with one. -/
  | bareQuote (column : Nat)
  /-- A quoted field that is not closed, or goes on behind its quote. -/
  | quote (column : Nat)
  deriving DecidableEq

namespace Fault

def message : Fault → Bytes
  | .bareQuote column =>
    "parse error on line 1, column " ++ Bytes.ofNat column ++ ": bare \" in non-quoted field"
  | .quote column =>
    "parse error on line 1, column " ++ Bytes.ofNat column ++
      ": extraneous or missing \" in quoted-field"

end Fault

def comma : UInt8 := 0x2C
def quoteMark : UInt8 := 0x22

/-- Where reading stands: at the start of a field, inside a plain one, inside a quoted one, or
behind a quote mark in a quoted one. -/
inductive Mode where
  | start
  | plain
  | quoted
  | closing

/-- The fields from a column on; `read` is what belongs to the first of them, newest first. -/
def fieldsFrom : Mode → (column : Nat) → (read : Bytes) → Bytes → Except Fault (List Bytes)
  | .quoted, column, _, [] => .error (.quote column)
  | _, _, read, [] => .ok [read.reverse]
  | mode, column, read, b :: rest =>
    match mode with
    | .start =>
      if b = quoteMark then fieldsFrom .quoted (column + 1) [] rest
      else if b = comma then (fieldsFrom .start (column + 1) [] rest).map ([] :: ·)
      else fieldsFrom .plain (column + 1) [b] rest
    | .plain =>
      if b = quoteMark then .error (.bareQuote column)
      else if b = comma then
        (fieldsFrom .start (column + 1) [] rest).map (read.reverse :: ·)
      else fieldsFrom .plain (column + 1) (b :: read) rest
    | .quoted =>
      if b = quoteMark then fieldsFrom .closing (column + 1) read rest
      else fieldsFrom .quoted (column + 1) (b :: read) rest
    | .closing =>
      if b = quoteMark then fieldsFrom .quoted (column + 1) (b :: read) rest
      else if b = comma then
        (fieldsFrom .start (column + 1) [] rest).map (read.reverse :: ·)
      else .error (.quote (column - 1))

def parse (text : Bytes) : Except Fault (List Bytes) :=
  if text.isEmpty then .ok [] else fieldsFrom .start 1 [] text

end GrammarCompletion.FieldList
