import GrammarCompletion.Text.Quoted
import GrammarCompletion.Yaml.Reader

/-!
# Language definitions

A definition binds a grammar to the settings of completion. It is written as a YAML mapping, all of
whose fields are known and given at most once.
-/

namespace GrammarCompletion

structure Definition where
  name : Bytes := []
  /-- The path of the grammar, relative to the definition. -/
  grammar : Bytes := []
  /-- The parser rule on top. -/
  start : Bytes := []
  /-- Tokens that the parser never sees. -/
  skip : List Bytes := []
  /-- Rules that are proposed as a whole. -/
  preferred : List Bytes := []
  /-- Tokens that are never proposed. -/
  ignored : List Bytes := []
  /-- File name extensions with their dots. -/
  extensions : List Bytes := []
  deriving DecidableEq, Inhabited

inductive DefinitionError where
  /-- The text is no document. -/
  | document (cause : Yaml.Error)
  | notMapping
  | repeatedField (name : Bytes)
  | unknownField (name : Bytes)
  /-- A field or an entry of a list is not of the right kind. -/
  | wrongKind
  | noName
  | noGrammar
  | noStart
  | extensionWithoutDot (extension : Bytes)
  deriving DecidableEq

namespace DefinitionError

def message : DefinitionError → Bytes
  | .document cause => "parse language: " ++ cause.message
  | .notMapping => "parse language: a mapping is expected"
  | .repeatedField name => "parse language: field " ++ name ++ " is given twice"
  | .unknownField name => "parse language: field " ++ name ++ " is not known"
  | .wrongKind => "parse language: a value is of the wrong kind"
  | .noName => "invalid language: name is required"
  | .noGrammar => "invalid language: grammar is required"
  | .noStart => "invalid language: start is required"
  | .extensionWithoutDot extension =>
    "invalid language: extension " ++ Quoted.quote extension ++ " must start with a dot"

end DefinitionError

namespace Definition

open Yaml (Node)

/-- The text of a scalar; nothing written is the empty text. -/
def textOf (node : Node) : Except DefinitionError Bytes :=
  match node with
  | .scalar text _ => .ok (if node.isNull then [] else text)
  | _ => .error .wrongKind

/-- The texts of a sequence; entries in which nothing is written are left out. -/
def textsOf (node : Node) : Except DefinitionError (List Bytes) :=
  match node with
  | .sequence items => (items.filter fun item => !item.isNull).mapM textOf
  | _ => if node.isNull then .ok [] else .error .wrongKind

def set (d : Definition) (name : Bytes) (value : Node) : Except DefinitionError Definition := do
  if name = "name" then return { d with name := ← textOf value }
  else if name = "grammar" then return { d with grammar := ← textOf value }
  else if name = "start" then return { d with start := ← textOf value }
  else if name = "skip" then return { d with skip := ← textsOf value }
  else if name = "preferred" then return { d with preferred := ← textsOf value }
  else if name = "ignored" then return { d with ignored := ← textsOf value }
  else if name = "extensions" then return { d with extensions := ← textsOf value }
  else throw (.unknownField name)

/-- Set the fields of a mapping, some of which are already set. A key in which nothing is written is
passed over. -/
def setAll : Definition → (done : List Bytes) → List (Node × Node) →
    Except DefinitionError Definition
  | d, _, [] => .ok d
  | d, done, (key, value) :: rest =>
    match key with
    | .scalar name _ =>
      if done.contains name then .error (.repeatedField name)
      else if key.isNull then setAll d (name :: done) rest
      else do setAll (← d.set name value) (name :: done) rest
    | _ => .error .wrongKind

/-- The definition a document holds; a document in which nothing is written sets no field. -/
def ofNode (node : Node) : Except DefinitionError Definition :=
  match node with
  | .mapping entries => setAll {} [] entries
  | _ => if node.isNull then .ok {} else .error .notMapping

def undotted? (extensions : List Bytes) : Option Bytes :=
  extensions.find? fun e => e.head? != some 0x2E

def validate (d : Definition) : Except DefinitionError Unit :=
  if d.name.isEmpty then .error .noName
  else if d.grammar.isEmpty then .error .noGrammar
  else if d.start.isEmpty then .error .noStart
  else
    match undotted? d.extensions with
    | some e => .error (.extensionWithoutDot e)
    | none => .ok ()

def parse (text : Bytes) : Except DefinitionError Definition := do
  let node ← (Yaml.read text).mapError DefinitionError.document
  let d ← ofNode node
  d.validate
  return d

end Definition

end GrammarCompletion
