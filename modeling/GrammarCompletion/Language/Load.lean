import GrammarCompletion.Language.Basic
import GrammarCompletion.Language.Builtin

/-!
# Loading languages
-/

namespace GrammarCompletion.Language

def inDirectory (directory name : Bytes) : Bytes :=
  if directory.getLast? = some Path.slash then directory ++ name
  else directory ++ [Path.slash] ++ name

/-- The source of the grammar that a definition names. A relative path is one below the directory of
the definition, and errors give it as it is. -/
def grammarSource [Monad m] (files : Files m) (directory path : Bytes) :
    m (Except LanguageError Bytes) := do
  if Path.isAbsolute path then
    return (← files.read path).mapError LanguageError.grammarFile
  else if directory.isEmpty then return .error (.noDirectory path)
  else if !Path.isLocal path then return .error (.grammarPath path)
  else
    return (← files (inDirectory directory path)).mapError fun fault => .grammarFile ⟨path, fault⟩

def ofText [Monad m] (files : Files m) (text directory : Bytes) :
    m (Except LanguageError Language) := do
  match Definition.parse text with
  | .error e => return .error (.definition e)
  | .ok definition =>
    match ← grammarSource files directory definition.grammar with
    | .error e => return .error e
    | .ok source => return make definition source

def load [Monad m] (files : Files m) (path : Bytes) : m (Except LanguageError Language) := do
  match ← files.read path with
  | .error e => return .error (.definitionFile e)
  | .ok text =>
    return (← ofText files text (Path.directory path)).mapError (LanguageError.inFile path)

def builtin (name : Bytes) : Except LanguageError Language :=
  match Builtin.all.find? fun b => b.name == name with
  | none => .error (.unknown name)
  | some b => do
    let definition ← (Definition.parse b.definition).mapError LanguageError.definition
    make definition b.grammar

end GrammarCompletion.Language
