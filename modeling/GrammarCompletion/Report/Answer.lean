import GrammarCompletion.Json
import GrammarCompletion.Language.Complete

/-!
# Reports

An answer is reported as a JSON text with its candidates by name, or as lines, one for each
proposal. In JSON, texts and lists that may be missing are left out when empty.
-/

namespace GrammarCompletion.Report

def optionalText (name value : Bytes) : List (Bytes × Json) :=
  if value.isEmpty then [] else [(name, .text value)]

def optionalTexts (name : Bytes) (values : List Bytes) : List (Bytes × Json) :=
  if values.isEmpty then [] else [(name, .array (values.map Json.text))]

def ruleName (names : List Bytes) (rule : Int) : Bytes :=
  if rule < 0 then "rule" ++ Bytes.ofInt rule
  else (names[rule.toNat]?).getD ("rule" ++ Bytes.ofInt rule)

def token (v : Vocabulary) (t : Token) : Json :=
  let place : List (Bytes × Json) := [("line", .number t.line), ("column", .number t.column)]
  .object (("index", .number t.index) :: ("type", .text (v.displayName t.symbol)) ::
    (optionalText "text" t.text ++ place))

def candidateToken (v : Vocabulary) (symbol : Symbol) (following : List Symbol) : Json :=
  .object (("type", .text (v.displayName symbol)) ::
    optionalTexts "following" (following.map v.displayName))

def candidateRule (names : List Bytes) (rule : Int) (path : List Int) : Json :=
  .object (("name", .text (ruleName names rule)) :: optionalTexts "path" (path.map (ruleName names)))

def proposal (p : Proposal) : Json :=
  .object (("label", .text p.label) :: ("kind", .text p.kind.text) ::
    (optionalText "detail" p.detail ++ optionalText "insert" p.insert))

def answer (c : Completion) : Json :=
  .object [
    ("language", .text c.language),
    ("offset", .number c.offset),
    ("caret", token c.vocabulary c.caret),
    ("tokens", .array (c.candidates.tokens.toList.map fun (symbol, following) =>
      candidateToken c.vocabulary symbol following)),
    ("rules", .array (c.candidates.rules.toList.map fun (rule, path) =>
      candidateRule c.ruleNames rule path)),
    ("proposals", .array (c.proposals.map proposal)),
    ("statesProcessed", .number c.candidates.statesProcessed)]

def json (c : Completion) : Bytes := (answer c).format ++ "\n"

/-- The kind, the label and, unless empty, the detail of a proposal, with tabs between. -/
def line (p : Proposal) : Bytes :=
  let fields := if p.detail.isEmpty then [p.kind.text, p.label] else [p.kind.text, p.label, p.detail]
  Bytes.join "\t" fields ++ "\n"

def lines (c : Completion) : Bytes := c.proposals.flatMap line

end GrammarCompletion.Report
