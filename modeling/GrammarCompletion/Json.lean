import GrammarCompletion.Text.Rune

/-!
# JSON values

Values are written over several lines, every level two blanks deeper. Characters that would matter
in a web page are escaped, and a stray byte is written as the replacement character.
-/

namespace GrammarCompletion

/-- A JSON value. The entries of an object keep their order. -/
inductive Json where
  | null
  | bool (value : Bool)
  | number (value : Int)
  /-- A number with a fraction: `mantissa` divided by ten to the power `places`. -/
  | decimal (mantissa : Int) (places : Nat)
  | text (value : Bytes)
  | array (items : List Json)
  | object (entries : List (Bytes × Json))
  deriving Inhabited

namespace Json

def get? (value : Json) (name : Bytes) : Option Json :=
  match value with
  | .object entries => entries.lookup name
  | _ => none

/-! ## Texts -/

def letterEscapes : List (Nat × Bytes) := [
  (0x22, "\\\""), (0x5C, "\\\\"), (0x08, "\\b"), (0x0C, "\\f"), (0x0A, "\\n"), (0x0D, "\\r"),
  (0x09, "\\t")]

def isNumbered (code : Nat) : Bool :=
  code < 0x20 || code = 0x3C || code = 0x3E || code = 0x26 || code = 0x2028 || code = 0x2029

def escape (code : Nat) : Bytes :=
  match letterEscapes.lookup code with
  | some e => e
  | none => if isNumbered code then "\\u" ++ Bytes.hex 4 code else Bytes.ofCode code

def quote (text : Bytes) : Bytes :=
  ("\"" : Bytes) ++ text.runes.flatMap (fun r => escape r.code) ++ "\""

/-! ## Layout -/

/-- A number with a point in front of its last `places` digits. -/
def decimalText (mantissa : Int) (places : Nat) : Bytes :=
  let unit := Nat.pow 10 places
  let whole := Bytes.ofNat (mantissa.natAbs / unit)
  let fraction := (Bytes.ofNat (unit + mantissa.natAbs % unit)).drop 1
  (if mantissa < 0 then "-" else "" : Bytes) ++ whole ++ "." ++ fraction

def newLine (level : Nat) : Bytes := Bytes.newline :: List.replicate (2 * level) 0x20

mutual

def render (level : Nat) : Json → Bytes
  | .null => "null"
  | .bool value => if value then "true" else "false"
  | .number value => Bytes.ofInt value
  | .decimal mantissa places => decimalText mantissa places
  | .text value => quote value
  | .array [] => "[]"
  | .array items => ("[" : Bytes) ++ renderItems (level + 1) items ++ newLine level ++ "]"
  | .object [] => "\x7b\x7d"
  | .object entries =>
    ("\x7b" : Bytes) ++ renderEntries (level + 1) entries ++ newLine level ++ "\x7d"

def renderItems (level : Nat) : List Json → Bytes
  | [] => []
  | [item] => newLine level ++ render level item
  | item :: rest => newLine level ++ render level item ++ "," ++ renderItems level rest

def renderEntries (level : Nat) : List (Bytes × Json) → Bytes
  | [] => []
  | [(name, value)] => newLine level ++ quote name ++ ": " ++ render level value
  | (name, value) :: rest =>
    newLine level ++ quote name ++ ": " ++ render level value ++ "," ++ renderEntries level rest

end

def format (value : Json) : Bytes := render 0 value

end Json

end GrammarCompletion
