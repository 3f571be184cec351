import GrammarCompletion.Json
import GrammarCompletion.Text.Folding

/-!
# Messages of an editor

A message is a method with parameters. Parameters are read field by field: what is missing or `null`
is empty, unknown fields are passed over, and a field of the wrong kind makes the message
unreadable. A field may be written in another case than its name.
-/

namespace GrammarCompletion.Editor

inductive Change where
  /-- The new text as a whole. -/
  | whole (text : Bytes)
  /-- A change of a part of the text. -/
  | part

inductive Message where
  | start
  | initialized
  | shutdown
  | setTrace
  | opened (uri text : Bytes) (version : Int)
  | changed (uri : Bytes) (version : Int) (changes : List Change)
  | closed (uri : Bytes)
  | saved (uri : Bytes) (text : Option Bytes)
  | completion (uri : Bytes) (line character : Nat)

/-! ## Fields -/

/-- The entries of an object; `null` has none. -/
def record? : Json → Option (List (Bytes × Json))
  | .null => some []
  | .object entries => some entries
  | _ => none

def items? : Json → Option (List Json)
  | .null => some []
  | .array items => some items
  | _ => none

def text? : Json → Option Bytes
  | .null => some []
  | .text value => some value
  | _ => none

def integer? (least greatest : Int) : Json → Option Int
  | .null => some 0
  | .number value => if least ≤ value ∧ value ≤ greatest then some value else none
  | _ => none

def signed? : Json → Option Int := integer? (-2147483648) 2147483647

def unsigned? (value : Json) : Option Nat := (integer? 0 4294967295 value).map Int.toNat

def token? : Json → Option Unit
  | .text _ => some ()
  | value => (signed? value).map fun _ => ()

/-- The value of a field: the one under its very name, else the one under its name up to case. -/
def find? (entries : List (Bytes × Json)) (name : Bytes) : Option Json :=
  match entries.lookup name with
  | some value => some value
  | none => (entries.find? fun entry => Folding.equalUpToCase entry.1 name).map Prod.snd

def field (entries : List (Bytes × Json)) (name : Bytes) (read? : Json → Option α) : Option α :=
  read? ((find? entries name).getD .null)

def isGiven (entries : List (Bytes × Json)) (name : Bytes) : Bool :=
  match find? entries name with
  | none | some .null => false
  | some _ => true

def documentName? (value : Json) : Option Bytes := do
  let entries ← record? value
  field entries "uri" text?

def position? (value : Json) : Option (Nat × Nat) := do
  let entries ← record? value
  return (← field entries "line" unsigned?, ← field entries "character" unsigned?)

def range? (value : Json) : Option Unit := do
  let entries ← record? value
  let _ ← field entries "start" position?
  let _ ← field entries "end" position?

def change? (value : Json) : Option Change := do
  let entries ← record? value
  let text ← field entries "text" text?
  let _ ← field entries "rangeLength" unsigned?
  let _ ← field entries "range" range?
  return if isGiven entries "range" then .part else .whole text

/-! ## Parameters -/

def programInfo? (value : Json) : Option Unit := do
  let entries ← record? value
  let _ ← field entries "name" text?
  let _ ← field entries "version" text?

def folder? (value : Json) : Option Unit := do
  let entries ← record? value
  let _ ← field entries "uri" text?
  let _ ← field entries "name" text?

def start? (params : Json) : Option Message := do
  let entries ← record? params
  let _ ← field entries "processId" signed?
  let _ ← field entries "clientInfo" programInfo?
  let _ ← field entries "locale" text?
  let _ ← field entries "rootPath" text?
  let _ ← field entries "rootUri" text?
  let _ ← field entries "capabilities" record?
  let _ ← field entries "trace" text?
  let folders ← field entries "workspaceFolders" items?
  let _ ← folders.mapM folder?
  return .start

def setTrace? (params : Json) : Option Message := do
  let entries ← record? params
  let _ ← field entries "value" text?
  return .setTrace

def opened? (params : Json) : Option Message := do
  let document ← field (← record? params) "textDocument" record?
  let _ ← field document "languageId" text?
  return .opened (← field document "uri" text?) (← field document "text" text?)
    (← field document "version" signed?)

def changed? (params : Json) : Option Message := do
  let entries ← record? params
  let document ← field entries "textDocument" record?
  let changes ← field entries "contentChanges" items?
  return .changed (← field document "uri" text?) (← field document "version" signed?)
    (← changes.mapM change?)

def closed? (params : Json) : Option Message := do
  return .closed (← field (← record? params) "textDocument" documentName?)

def saved? (params : Json) : Option Message := do
  let entries ← record? params
  let uri ← field entries "textDocument" documentName?
  let text ← field entries "text" text?
  return .saved uri (if isGiven entries "text" then some text else none)

def trigger? (value : Json) : Option Unit := do
  let entries ← record? value
  let _ ← field entries "triggerKind" signed?
  let _ ← field entries "triggerCharacter" text?

def completion? (params : Json) : Option Message := do
  let entries ← record? params
  let uri ← field entries "textDocument" documentName?
  let (line, character) ← field entries "position" position?
  let _ ← field entries "context" trigger?
  let _ ← field entries "workDoneToken" token?
  let _ ← field entries "partialResultToken" token?
  return .completion uri line character

def readers : List (Bytes × (Json → Option Message)) := [
  ("initialize", start?),
  ("initialized", fun params => (record? params).map fun _ => .initialized),
  ("shutdown", fun _ => some .shutdown),
  ("$/setTrace", setTrace?),
  ("textDocument/didOpen", opened?),
  ("textDocument/didChange", changed?),
  ("textDocument/didClose", closed?),
  ("textDocument/didSave", saved?),
  ("textDocument/completion", completion?)]

end GrammarCompletion.Editor
