import GrammarCompletion.Ebnf.Error
import GrammarCompletion.Ebnf.Expr
import GrammarCompletion.Files

/-!
# Reading productions

```
source     = { production } .
production = identifier "=" [ expression ] "." .
expression = sequence { "|" sequence } .
sequence   = term { term } .
term       = identifier | text [ "…" text ] | "(" expression ")" | "[" expression "]"
           | "{" expression "}" .
```

Reading never stops at an error. Where a lexeme is not the expected one, an error is noted and the
lexeme is passed over all the same. Every other way forward passes over a lexeme too, so the number
of lexemes bounds the reading.
-/

namespace GrammarCompletion.Ebnf

/-- A source being read: the lexemes ahead, the lexeme behind them, and the errors so far, newest
first. -/
structure Reader where
  file : Bytes
  ahead : List Lexeme
  finish : Lexeme
  errors : List Error

namespace Reader

abbrev Reading := StateM Reader

def current : Reading Lexeme := do
  let r ← get
  return r.ahead.headD r.finish

def currentPosition : Reading Position := do
  let r ← get
  return ⟨r.file, some (r.ahead.headD r.finish).place⟩

def next : Reading Unit := modify fun r => { r with ahead := r.ahead.tail }

def note (position : Position) (fault : Fault) : Reading Unit :=
  modify fun r => { r with errors := ⟨position, fault⟩ :: r.errors }

def noteExpected (what : Bytes) : Reading Unit := do
  note (← currentPosition) (.expected what (← current))

def expect (kind : LexemeKind) : Reading Unit := do
  unless (← current).kind = kind do noteExpected kind.name
  next

/-- An identifier; whatever stands in its place is taken for one. -/
def identifier : Reading Located := do
  let name : Located := ⟨← currentPosition, (← current).text⟩
  expect .identifier
  return name

def literal : Reading Located := do
  let position ← currentPosition
  let lexeme ← current
  if lexeme.kind = .string ∨ lexeme.kind = .rawString then
    next
    return ⟨position, lexeme.value⟩
  else
    expect .string
    return ⟨position, []⟩

def ellipsis : LexemeKind := .sign 0x2026

mutual

def term : (fuel : Nat) → Reading (Option Expr)
  | 0 => return none
  | fuel + 1 => do
    match (← current).kind with
    | .identifier => return some (.name (← identifier))
    | .string | .rawString =>
      let first ← literal
      if (← current).kind = ellipsis then
        next
        return some (.range first (← literal))
      else return some (.literal first)
    | kind =>
      if kind = .ofChar '(' then
        next
        let body ← expression fuel
        expect (.ofChar ')')
        return some (.group body)
      else if kind = .ofChar '[' then
        next
        let body ← expression fuel
        expect (.ofChar ']')
        return some (.option body)
      else if kind = .ofChar '\x7b' then
        next
        let body ← expression fuel
        expect (.ofChar '\x7d')
        return some (.repetition body)
      else return none

def terms : (fuel : Nat) → Reading (List Expr)
  | 0 => return []
  | fuel + 1 => do
    match ← term fuel with
    | none => return []
    | some x => return x :: (← terms fuel)

/-- At least one term. In place of a missing one stands an expression that derives nothing. -/
def sequence : (fuel : Nat) → Reading Expr
  | 0 => return .alternative []
  | fuel + 1 => do
    match ← terms fuel with
    | [] =>
      noteExpected "term"
      return .alternative []
    | [x] => return x
    | items => return .sequence items

def branches : (fuel : Nat) → Reading (List Expr)
  | 0 => return []
  | fuel + 1 => do
    let x ← sequence fuel
    if (← current).kind = .ofChar '|' then
      next
      return x :: (← branches fuel)
    else return [x]

def expression : (fuel : Nat) → Reading Expr
  | 0 => return .alternative []
  | fuel + 1 => do
    match ← branches fuel with
    | [x] => return x
    | items => return .alternative items

end

def production (fuel : Nat) : Reading Production := do
  let name ← identifier
  expect (.ofChar '=')
  let body ← if (← current).kind = .ofChar '.' then pure none else some <$> expression fuel
  expect (.ofChar '.')
  return ⟨name, body⟩

/-- All productions, in front of which stand those already read. Of two with one name the first
stays. -/
def productions (depth : Nat) : (fuel : Nat) → Source → Reading Source
  | 0, read => return read
  | fuel + 1, read => do
    if (← current).kind = .endOfSource then return read
    else
      let p ← production depth
      if (Source.find? read p.name.text).isSome then
        note p.name.position (.declaredAlready p.name.text)
        productions depth fuel read
      else productions depth fuel (read ++ [p])

end Reader

/-- Read a grammar source. All errors are reported, in the order in which they were met. -/
def read (file source : Bytes) : Except (List Error) Source :=
  let (lexemes, finish) := readLexemes source
  let count := lexemes.length + 1
  let (result, reader) := (Reader.productions (5 * count) count []).run ⟨file, lexemes, finish, []⟩
  if reader.errors.isEmpty then .ok result else .error reader.errors.reverse

inductive LoadError where
  | file (error : FileError)
  | unreadable (errors : List Error)

namespace LoadError

def message : LoadError → Bytes
  | .file error => "open grammar: " ++ error.message
  | .unreadable errors => "parse grammar: " ++ Error.summary errors

end LoadError

def load [Monad m] (files : Files m) (path : Bytes) : m (Except LoadError Source) := do
  match ← files.readOpened path with
  | .error e => return .error (.file e)
  | .ok text => return (read path text).mapError LoadError.unreadable

end GrammarCompletion.Ebnf
