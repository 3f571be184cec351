import GrammarCompletion.Completion.Candidates
import GrammarCompletion.Text.Quoted

/-!
# Proposals

Proposals are completion entries for display.
-/

namespace GrammarCompletion

inductive ProposalKind where
  /-- A token that can stand at the caret. -/
  | token
  /-- A preferred rule that can start at the caret. -/
  | rule
  /-- A token that comes behind a proposed one. -/
  | following
  /-- A kind by a code that has no meaning. -/
  | other (code : Int)
  deriving DecidableEq, Inhabited

namespace ProposalKind

def ofCode (code : Int) : ProposalKind :=
  if code = 0 then .token else if code = 1 then .rule else if code = 2 then .following
  else .other code

def code : ProposalKind → Int
  | .token => 0
  | .rule => 1
  | .following => 2
  | .other code => code

def text : ProposalKind → Bytes
  | .token => "token"
  | .rule => "rule"
  | .following => "following"
  | .other code => "ProposalKind(" ++ Bytes.ofInt code ++ ")"

def ofText? (name : Bytes) : Option ProposalKind :=
  [ProposalKind.token, .rule, .following].find? fun kind => kind.text == name

def unknownMessage (name : Bytes) : Bytes := "unknown proposal kind " ++ Quoted.quote name

end ProposalKind

structure Proposal where
  label : Bytes
  kind : ProposalKind
  detail : Bytes
  /-- The text to insert, for tokens that always have the same text. -/
  insert : Bytes
  deriving DecidableEq, Inhabited

end GrammarCompletion
