import GrammarCompletion.Completion.Collect
import GrammarCompletion.Files
import GrammarCompletion.Grammar.Basic
import GrammarCompletion.Language.Definition
import GrammarCompletion.Text.Folding
import GrammarCompletion.Text.Path

/-!
# Languages

A language is a definition with its compiled grammar and an engine that knows which rules and tokens
the definition names.
-/

namespace GrammarCompletion

structure Language where
  definition : Definition
  grammar : Grammar
  engine : Engine

inductive LanguageError where
  /-- No language of that name comes with the program. -/
  | unknown (name : Bytes)
  /-- The file of the definition cannot be read. -/
  | definitionFile (error : FileError)
  | definition (error : DefinitionError)
  /-- The file of the grammar cannot be read. -/
  | grammarFile (error : FileError)
  /-- The path of the grammar leads out of the directory of the definition. -/
  | grammarPath (path : Bytes)
  /-- The directory of the definition has no name. -/
  | noDirectory (path : Bytes)
  | grammar (error : GrammarError)
  /-- A preferred rule is not in the grammar. -/
  | unknownRule (name : Bytes)
  /-- An ignored token is not in the grammar. -/
  | unknownToken (name : Bytes)
  /-- The cause with the path of the definition. -/
  | inFile (path : Bytes) (cause : LanguageError)

namespace LanguageError

def message : LanguageError → Bytes
  | .unknown name => "unknown language " ++ Quoted.quote name
  | .definitionFile error => "read language: " ++ error.message
  | .definition error => error.message
  | .grammarFile error => "read grammar: " ++ error.message
  | .grammarPath path => "read grammar: readfile " ++ path ++ ": invalid argument"
  | .noDirectory path => "read grammar: readfile " ++ path ++ ": os: DirFS with empty root"
  | .grammar error => error.message
  | .unknownRule name => "unknown rule " ++ Quoted.quote name ++ " in preferred"
  | .unknownToken name => "unknown token " ++ Quoted.quote name ++ " in ignored"
  | .inFile path cause => path ++ ": " ++ cause.message

end LanguageError

namespace Language

def ruleIndex (g : Grammar) (name : Bytes) : Except LanguageError Int :=
  match g.automaton.ruleByName? name with
  | some rule => .ok rule.index
  | none => .error (.unknownRule name)

def tokenType (g : Grammar) (name : Bytes) : Except LanguageError Symbol :=
  match g.vocabulary.type? name with
  | some symbol => .ok symbol
  | none => .error (.unknownToken name)

def make (definition : Definition) (source : Bytes) : Except LanguageError Language := do
  let g ← (Grammar.parse definition.grammar source definition.start definition.skip).mapError
    LanguageError.grammar
  let preferred ← definition.preferred.mapM (ruleIndex g)
  let ignored ← definition.ignored.mapM (tokenType g)
  return ⟨definition, g, Engine.make g.automaton (.grammar g.id) preferred ignored⟩

def name (l : Language) : Bytes := l.definition.name

/-- Whether a file has one of the extensions of the language, letter case aside. -/
def claims (l : Language) (file : Bytes) : Bool :=
  l.definition.extensions.any fun e => Folding.equalUpToCase e (Path.extension file)

end Language

end GrammarCompletion
