import GrammarCompletion.Language.Basic
import GrammarCompletion.Language.Proposal

/-!
# Completing a text

The token at the caret is the first visible one that ends at or behind the caret, so that a word
that is only partly there is completed rather than followed.
-/

namespace GrammarCompletion

/-- The answer to a completion request. `vocabulary` and `ruleNames` name the token types and rules
of the candidates. -/
structure Completion where
  language : Bytes
  offset : Int
  caret : Token
  candidates : Candidates
  proposals : List Proposal
  vocabulary : Vocabulary
  ruleNames : List Bytes

namespace Completion

def labels (c : Completion) : List Bytes := c.proposals.map Proposal.label

end Completion

inductive RequestError where
  | offsetOutside (offset : Int) (length : Nat)
  | engine (cause : CompletionError)

namespace RequestError

def message : RequestError → Bytes
  | .offsetOutside offset length =>
    "invalid argument: offset " ++ Bytes.ofInt offset ++ " outside text of " ++
      Bytes.ofNat length ++ " bytes"
  | .engine cause => cause.message

end RequestError

structure Served where
  result : Except RequestError Completion
  cache : Cache

namespace Language

/-- The first visible token that ends at or behind an offset, else the last token. -/
def caretToken (stream : TokenStream) (offset : Int) : Token :=
  match stream.tokens.toList.find? fun t => t.isVisible && decide (offset ≤ t.stop) with
  | some t => t
  | none => stream.last

def ruleName (l : Language) (rule : Int) : Bytes :=
  ((l.grammar.automaton.rule? rule).map Rule.name).getD []

def tokenProposal (v : Vocabulary) (symbol : Symbol) (following : List Symbol) : Proposal :=
  { label := v.displayName symbol
    kind := .token
    detail := Bytes.join " " (following.map v.displayName)
    insert := (v.literal? symbol).getD [] }

def ruleProposal (l : Language) (rule : Int) (path : List Int) : Proposal :=
  { label := l.ruleName rule
    kind := .rule
    detail := Bytes.join " > " (path.map l.ruleName)
    insert := [] }

def followingProposal (v : Vocabulary) (symbol : Symbol) : Proposal :=
  { label := v.displayName symbol
    kind := .following
    detail := []
    insert := (v.literal? symbol).getD [] }

/-- Candidate tokens, then candidate rules, then tokens that only follow candidates. -/
def proposals (l : Language) (c : Candidates) : List Proposal :=
  let v := l.grammar.vocabulary
  c.tokens.toList.map (fun (symbol, following) => tokenProposal v symbol following) ++
    c.rules.toList.map (fun (rule, path) => l.ruleProposal rule path) ++
    (c.symbols.filter fun symbol => !c.tokens.contains symbol).map (followingProposal v)

def complete (l : Language) (cache : Cache) (text : Bytes) (offset : Int)
    (evaluator : Option Evaluator) : Served :=
  if offset < 0 ∨ (text.length : Int) < offset then
    ⟨.error (.offsetOutside offset text.length), cache⟩
  else
    let stream := TokenStream.ofTokens ((l.grammar.lexer l.name).tokenize text).1
    let caret := caretToken stream offset
    let collected := l.engine.collect cache stream caret.index {} evaluator
    match collected.result with
    | .error cause => ⟨.error (.engine cause), collected.cache⟩
    | .ok candidates =>
      ⟨.ok {
        language := l.name
        offset := offset
        caret := caret
        candidates := candidates
        proposals := l.proposals candidates
        vocabulary := l.grammar.vocabulary
        ruleNames := l.grammar.automaton.ruleNames }, collected.cache⟩

end Language

end GrammarCompletion
