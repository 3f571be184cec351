import GrammarCompletion.Editor.Document
import GrammarCompletion.Editor.Message
import GrammarCompletion.Editor.TextPosition
import GrammarCompletion.Editor.Uri
import GrammarCompletion.Language.Complete

/-!
# Serving an editor

A server keeps the texts of open documents and completes them. A document belongs to the first
language that claims its file; one that no language claims is not kept.
-/

namespace GrammarCompletion.Editor

structure Hosted where
  language : Language
  cache : Cache

/-- A server; documents hold the position of their language. -/
structure Server where
  version : Bytes
  hosted : List Hosted
  documents : Documents Nat
  isInitialized : Bool

inductive Reply where
  | result (value : Json)
  | notInitialized
  | unknownMethod
  | badParameters

namespace Reply

def notInitializedMessage : Bytes := "server not initialized"

end Reply

namespace Server

def make (version : Bytes) (languages : List Language) : Server :=
  ⟨version, languages.map fun l => ⟨l, {}⟩, Documents.empty, false⟩

def capabilities (s : Server) : Json :=
  .object [
    ("capabilities", .object [
      ("textDocumentSync", .object [
        ("openClose", .bool true), ("change", .number 1),
        ("save", .object [("includeText", .bool true)])]),
      ("completionProvider", .object [])]),
    ("serverInfo", .object [("name", .text "caret"), ("version", .text s.version)])]

def languageFor? (s : Server) (path : Bytes) : Option Nat :=
  s.hosted.findIdx? fun h => h.language.claims path

def openDocument (s : Server) (uri text : Bytes) (version : Int) : Server :=
  match Uri.path uri with
  | .error _ => s
  | .ok path =>
    match s.languageFor? path with
    | none => s
    | some language => { s with documents := s.documents.put ⟨uri, language, text, version⟩ }

def writeDocument (s : Server) (uri text : Bytes) (version : Int) : Server :=
  { s with documents := (s.documents.update? uri text version).getD s.documents }

def itemKind : ProposalKind → Int
  | .token => 14
  | .rule => 9
  | _ => 1

def item (p : Proposal) : Json :=
  let detail : List (Bytes × Json) := if p.detail.isEmpty then [] else [("detail", .text p.detail)]
  let insert : List (Bytes × Json) :=
    if p.insert.isEmpty then [] else [("insertText", .text p.insert)]
  .object (("label", .text p.label) :: ("kind", .number (itemKind p.kind)) :: (detail ++ insert))

def keepCache (s : Server) (language : Nat) (cache : Cache) : Server :=
  { s with hosted := s.hosted.modify language fun h => { h with cache } }

def complete (s : Server) (uri : Bytes) (line character : Nat) : Server × List Proposal :=
  match s.documents.get? uri with
  | none => (s, [])
  | some doc =>
    match s.hosted[doc.language]? with
    | none => (s, [])
    | some h =>
      let offset := TextPosition.offset doc.text line character
      let served := h.language.complete h.cache doc.text offset none
      let proposals := match served.result with
        | .ok c => c.proposals
        | .error _ => []
      (s.keepCache doc.language served.cache, proposals)

def perform (s : Server) : Message → Server × Json
  | .start => ({ s with isInitialized := true }, s.capabilities)
  | .initialized => (s, .null)
  | .shutdown => ({ s with isInitialized := false }, .null)
  | .setTrace => (s, .null)
  | .opened uri text version => (s.openDocument uri text version, .null)
  | .changed uri version changes =>
    match changes.getLast? with
    | some (.whole text) => (s.writeDocument uri text version, .null)
    | _ => (s, .null)
  | .closed uri => ({ s with documents := s.documents.close uri }, .null)
  | .saved uri text =>
    match text, s.documents.get? uri with
    | some text, some doc => (s.writeDocument uri text doc.version, .null)
    | _, _ => (s, .null)
  | .completion uri line character =>
    let (s, proposals) := s.complete uri line character
    (s, if proposals.isEmpty then .null else .array (proposals.map item))

/-- Answer a method call. Before `initialize`, and after `shutdown`, nothing else is answered. -/
def handle (s : Server) (method : Bytes) (params : Json) : Server × Reply :=
  if !s.isInitialized && method != "initialize" then (s, .notInitialized)
  else
    match readers.lookup method with
    | none => (s, .unknownMethod)
    | some read? =>
      match read? params with
      | none => (s, .badParameters)
      | some message =>
        let (s, value) := s.perform message
        (s, .result value)

end Server

end GrammarCompletion.Editor
