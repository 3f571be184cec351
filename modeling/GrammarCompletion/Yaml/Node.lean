import GrammarCompletion.Text.Bytes

/-!
# YAML documents
-/

namespace GrammarCompletion.Yaml

inductive Node where
  /-- A text; a plain one stands without quotes. -/
  | scalar (text : Bytes) (isPlain : Bool)
  | sequence (items : List Node)
  | mapping (entries : List (Node × Node))
  deriving Inhabited

namespace Node

def null : Node := .scalar [] true

/-- The plain texts that stand for nothing. -/
def nullTexts : List Bytes := ["", "~", "null", "Null", "NULL"]

def isNull : Node → Bool
  | .scalar text isPlain => isPlain && nullTexts.contains text
  | _ => false

end Node

inductive Error where
  /-- There is no document in it. -/
  | empty
  /-- It has characters that no document may have. -/
  | badCharacter
  | malformed
  deriving DecidableEq

namespace Error

def message : Error → Bytes
  | .empty => "EOF"
  | .badCharacter => "yaml: control characters are not allowed"
  | .malformed => "yaml: malformed document"

end Error

end GrammarCompletion.Yaml
