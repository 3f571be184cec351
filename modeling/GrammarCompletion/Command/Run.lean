import GrammarCompletion.Automaton.Listing
import GrammarCompletion.Command.Help
import GrammarCompletion.Editor.Server
import GrammarCompletion.Language.Load
import GrammarCompletion.Report.Answer

/-!
# Running commands

A command reads files and its input, and answers with what is to be written and the error it ends
with. Serving an editor is left to the caller, who gets the server.
-/

namespace GrammarCompletion

inductive CommandError where
  | unknownCommand (word : Bytes)
  | flag (error : FlagError)
  | tooManyArguments (received : Nat)
  | notOneArgument (received : Nat)
  | startNotGiven
  | language (error : LanguageError)
  /-- A language given by its path. -/
  | loadLanguage (path : Bytes) (error : LanguageError)
  | input (error : FileError)
  | request (error : RequestError)
  | unknownFormat (name : Bytes)
  /-- The file of a grammar cannot be opened. -/
  | openGrammar (error : FileError)
  | loadGrammar (error : Grammar.LoadError)
  /-- Errors in a grammar that have been written out. -/
  | invalidGrammar (file : Bytes)
  /-- A label of an automaton cannot be listed. -/
  | overlong

namespace CommandError

def suggestionText (names : List Bytes) : Bytes :=
  if names.isEmpty then []
  else ("\n\nDid you mean this?\n" : Bytes) ++ names.flatMap fun name => 0x09 :: name ++ [0x0A]

def message : CommandError → Bytes
  | .unknownCommand word =>
    "unknown command " ++ Quoted.quote word ++ " for \"caret\"" ++
      suggestionText (CommandName.suggestions word)
  | .flag error => error.message
  | .tooManyArguments received => "accepts at most 1 arg(s), received " ++ Bytes.ofNat received
  | .notOneArgument received => "accepts 1 arg(s), received " ++ Bytes.ofNat received
  | .startNotGiven => "required flag(s) \"start\" not set"
  | .language error => error.message
  | .loadLanguage path error => "load " ++ path ++ ": " ++ error.message
  | .input error => "read input: " ++ error.message
  | .request error => error.message
  | .unknownFormat name => "unknown format " ++ Quoted.quote name ++ " (want json or text)"
  | .openGrammar error => "open file: " ++ error.message
  | .loadGrammar error => error.message
  | .invalidGrammar file => file ++ ": invalid grammar"
  | .overlong => "runtime error: makeslice: cap out of range"

end CommandError

structure Outcome where
  stdout : Bytes := []
  /-- Lines for the error channel. -/
  stderr : List Bytes := []
  error : Option CommandError := none
  /-- A server to be run. -/
  server : Option Editor.Server := none

structure Surroundings (m : Type → Type) where
  files : Files m
  /-- All of the standard input. -/
  input : m Bytes
  /-- Paths of languages to be served besides those given by flags. -/
  languages : List Bytes := []

namespace Command

variable {m : Type → Type} [Monad m]

def failed (error : CommandError) : Outcome := { error := some error }

def version : Bytes := "0.1.0"

def defaultLanguage : Bytes := "statemachine"

def loadAll (files : Files m) : List Bytes → m (Except CommandError (List Language))
  | [] => return .ok []
  | path :: rest => do
    match ← Language.load files path with
    | .error e => return .error (.loadLanguage path e)
    | .ok language => return (← loadAll files rest).map (language :: ·)

/-- The languages at some paths; without paths, the one with a name that comes with the program. -/
def languages (files : Files m) (paths : List Bytes) (name : Bytes) :
    m (Except CommandError (List Language)) :=
  if paths.isEmpty then
    return ((Language.builtin name).mapError CommandError.language).map ([·])
  else loadAll files paths

def inputText (around : Surroundings m) (arguments : List Bytes) :
    m (Except CommandError Bytes) := do
  match arguments with
  | path :: _ => return (← around.files.read path).mapError CommandError.input
  | [] => return .ok (← around.input)

def completeWith (language : Language) (text : Bytes) (offset : Int) (format : Bytes) : Outcome :=
  let caret := if offset < 0 then (text.length : Int) else offset
  match (language.complete {} text caret none).result with
  | .error e => failed (.request e)
  | .ok answer =>
    if format = "json" then { stdout := Report.json answer }
    else if format = "text" then { stdout := Report.lines answer }
    else failed (.unknownFormat format)

def complete (around : Surroundings m) (flags : Flags) : m Outcome := do
  let path := flags.text "lang" []
  let paths := if path.isEmpty then [] else [path]
  match ← languages around.files paths (flags.text "builtin" defaultLanguage) with
  | .error e => return failed e
  | .ok found =>
    match ← inputText around flags.arguments with
    | .error e => return failed e
    | .ok text =>
      match found with
      | [] => return {}
      | language :: _ =>
        return completeWith language text (flags.integer "offset" (-1)) (flags.text "format" "text")

def serve (around : Surroundings m) (flags : Flags) : m Outcome := do
  let paths := flags.all "lang" ++ around.languages
  match ← languages around.files paths (flags.text "builtin" defaultLanguage) with
  | .error e => return failed e
  | .ok found => return { server := some (Editor.Server.make version found) }

def invalid (file : Bytes) (errors : List Ebnf.Error) : Outcome :=
  { stderr := errors.map Ebnf.Error.message, error := some (.invalidGrammar file) }

def summary (file : Bytes) (source : Ebnf.Source) : Bytes :=
  file ++ ": " ++ Bytes.ofNat source.length ++ " productions, " ++
    Bytes.ofNat (source.ofKind .rule).length ++ " parser rules, " ++
    Bytes.ofNat (source.ofKind .token).length ++ " tokens\n"

def check (around : Surroundings m) (flags : Flags) (file : Bytes) : m Outcome := do
  match ← Ebnf.load around.files file with
  | .error (.file e) => return failed (.openGrammar e)
  | .error (.unreadable errors) => return invalid file errors
  | .ok source =>
    let start := flags.text "start" []
    if start.isEmpty then return {}
    else
      match ← Grammar.load around.files file start (flags.list "skip") with
      | .ok _ => return { stdout := summary file source }
      | .error (.grammar (.unsound errors)) => return invalid file errors
      | .error e => return failed (.loadGrammar e)

def listing (around : Surroundings m) (flags : Flags) (file : Bytes) : m Outcome := do
  match ← Grammar.load around.files file (flags.text "start" []) (flags.list "skip") with
  | .error e => return failed (.loadGrammar e)
  | .ok g =>
    match g.automaton.listing g.vocabulary with
    | .error _ => return failed .overlong
    | .ok text => return { stdout := text }

/-- A word between back quotes, or quoted if it cannot stand there. -/
def topicWord (word : Bytes) : Bytes :=
  if word.any fun b => b = 0x60 || b = 0x7F || (b < 0x20 && b ≠ 0x09) then Quoted.quote word
  else 0x60 :: word ++ [0x60]

def helpOn (topic : List Bytes) : Outcome :=
  let (name, rest) := CommandName.descend 3 .root topic
  match name, CommandName.words rest with
  | .root, _ :: _ =>
    let words : Bytes := Bytes.join " " (topic.map topicWord)
    let unknown : Bytes := "Unknown help topic [" ++ words ++ "]"
    { stderr := unknown :: CommandName.usage }
  | _, _ => { stdout := name.helpText }

def perform (around : Surroundings m) (name : CommandName) (flags : Flags) : m Outcome :=
  match name with
  | .root | .ebnf | .shell => return { stdout := name.helpText }
  | .help => return helpOn flags.arguments
  | .complete =>
    if 1 < flags.arguments.length then return failed (.tooManyArguments flags.arguments.length)
    else complete around flags
  | .serve => serve around flags
  | .check =>
    match flags.arguments with
    | [file] => check around flags file
    | arguments => return failed (.notOneArgument arguments.length)
  | .listing =>
    match flags.arguments with
    | [file] =>
      if flags.isGiven "start" then listing around flags file else return failed .startNotGiven
    | arguments => return failed (.notOneArgument arguments.length)

def run (around : Surroundings m) (arguments : List Bytes) : m Outcome :=
  let (name, rest) := CommandName.descend 3 .root arguments
  match name, CommandName.words rest with
  | .root, word :: _ => return failed (.unknownCommand word)
  | _, _ =>
    match Flags.read name.flags rest with
    | .error e => return failed (.flag e)
    | .ok flags =>
      if flags.wantsHelp then return { stdout := name.helpText } else perform around name flags

end Command

end GrammarCompletion
