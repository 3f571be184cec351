import GrammarCompletion.Digest
import GrammarCompletion.Ebnf.Check
import GrammarCompletion.Ebnf.Reader
import GrammarCompletion.Grammar.Compile

/-!
# Grammars

A grammar is read from a source of productions. It holds an automaton for its parser rules, the
names of its token types and the rules to lex them.
-/

namespace GrammarCompletion

open Ebnf

structure Grammar where
  /-- The name with a digest of the source. -/
  id : Bytes
  name : Bytes
  start : Bytes
  source : Source
  table : TokenTable
  automaton : Automaton

inductive GrammarError where
  /-- The source cannot be read. -/
  | unreadable (errors : List Ebnf.Error)
  | startIsNoRule (name : Bytes)
  | skipIsNoToken (name : Bytes)
  /-- A token to be skipped has no production. -/
  | skipUnknown (name : Bytes)
  /-- The productions do not fit together. -/
  | unsound (errors : List Ebnf.Error)
  | compile (error : CompileError)

namespace GrammarError

def listing? : GrammarError → Option (Bytes × List Ebnf.Error)
  | .unreadable errors => some ("parse grammar: ", errors)
  | .unsound errors => some ("verify grammar: ", errors)
  | _ => none

def message : GrammarError → Bytes
  | .unreadable errors => "parse grammar: " ++ Error.summary errors
  | .startIsNoRule name => "start production " ++ Quoted.quote name ++ " is not a parser rule"
  | .skipIsNoToken name => "skip production " ++ Quoted.quote name ++ " is not a token"
  | .skipUnknown name => "unknown production: skip token " ++ Quoted.quote name
  | .unsound errors => "verify grammar: " ++ Error.summary errors
  | .compile error => error.message

end GrammarError

namespace Grammar

/-- The production from which all others must be reached: the start rule or a token to be skipped,
which no parser rule refers to. -/
def root (start : Bytes) (skip : List Bytes) : Production :=
  ⟨.unplaced (start ++ "·"),
    some (.alternative ((start :: skip).map fun name => .name (.unplaced name)))⟩

def verifySkip (source : Source) : List Bytes → Except GrammarError Unit
  | [] => .ok ()
  | name :: rest =>
    if kindOf name ≠ .token then .error (.skipIsNoToken name)
    else if (source.find? name).isNone then .error (.skipUnknown name)
    else verifySkip source rest

def verify (source : Source) (start : Bytes) (skip : List Bytes) : Except GrammarError Unit := do
  if kindOf start ≠ .rule then throw (.startIsNoRule start)
  verifySkip source skip
  match source.check (root start skip) with
  | [] => return
  | errors => throw (.unsound errors)

/-- The name of a grammar with the first six bytes of the digest of its source. -/
def identify (name text : Bytes) : Bytes :=
  name ++ "@" ++ ((Digest.sha256 text).take 6).flatMap fun b => Bytes.hex 2 b.toNat

def ofSource (name text start : Bytes) (skip : List Bytes) (source : Source) :
    Except GrammarError Grammar :=
  let table := TokenTable.ofSource source skip
  match Compile.automaton source start table with
  | .error e => .error (.compile e)
  | .ok automaton => .ok ⟨identify name text, name, start, source, table, automaton⟩

/-- Read and compile a grammar. `start` names the rule on top, `skip` the tokens to be put off the
default channel. -/
def parse (name text start : Bytes) (skip : List Bytes) : Except GrammarError Grammar :=
  match Ebnf.read name text with
  | .error errors => .error (.unreadable errors)
  | .ok source =>
    match verify source start skip with
    | .error e => .error e
    | .ok _ => ofSource name text start skip source

def vocabulary (g : Grammar) : Vocabulary := g.table.vocabulary

def productions (g : Grammar) (kind : Kind) : List Bytes :=
  (g.source.ofKind kind).map fun p => p.name.text

def lexer (g : Grammar) (file : Bytes) : Lexer := Lexer.make g.source g.table.lexRules file

inductive LoadError where
  | file (error : FileError)
  | grammar (error : GrammarError)

namespace LoadError

def message : LoadError → Bytes
  | .file error => "read grammar: " ++ error.message
  | .grammar error => error.message

end LoadError

def load [Monad m] (files : Files m) (path start : Bytes) (skip : List Bytes) :
    m (Except LoadError Grammar) := do
  match ← files.read path with
  | .error e => return .error (.file e)
  | .ok text => return (parse path text start skip).mapError LoadError.grammar

end Grammar

end GrammarCompletion
