import GrammarCompletion.Text.Bytes

/-!
# Written integers

An integer is written with an optional sign, an optional base mark (`0b`, `0o` or `0`, `0x`) and
digits, between which single underscores may stand. It must fit into 64 bits.
-/

namespace GrammarCompletion.Integer

inductive Fault where
  | malformed
  | outOfRange
  deriving DecidableEq

namespace Fault

def message : Fault → Bytes
  | .malformed => "invalid syntax"
  | .outOfRange => "value out of range"

end Fault

def lower (b : UInt8) : UInt8 := if 0x41 ≤ b ∧ b ≤ 0x5A then b + 0x20 else b

def digit? (b : UInt8) : Option Nat :=
  if 0x30 ≤ b ∧ b ≤ 0x39 then some (b.toNat - 0x30)
  else if 0x61 ≤ lower b ∧ lower b ≤ 0x7A then some ((lower b).toNat - 0x57)
  else none

def baseOf (text : Bytes) : Nat × Bytes :=
  match text with
  | 0x30 :: mark :: b :: rest =>
    if lower mark = 0x62 then (2, b :: rest)
    else if lower mark = 0x6F then (8, b :: rest)
    else if lower mark = 0x78 then (16, b :: rest)
    else (8, mark :: b :: rest)
  | 0x30 :: rest => (8, rest)
  | _ => (10, text)

/-- The value of digits behind a value; it must stay below two to the power 64. -/
def digitsFrom (base : Nat) : (value : Nat) → Bytes → Except Fault Nat
  | value, [] => .ok value
  | value, b :: rest =>
    if b = 0x5F then digitsFrom base value rest
    else
      match digit? b with
      | none => .error .malformed
      | some d =>
        if base ≤ d then .error .malformed
        else if 2 ^ 64 ≤ base * value + d then .error .outOfRange
        else digitsFrom base (base * value + d) rest

/-- Whether every underscore stands between digits; `afterDigit` says what stands before. -/
def separated : (afterDigit : Bool) → Bytes → Bool
  | _, [] => true
  | afterDigit, b :: rest =>
    if b = 0x5F then afterDigit && !rest.isEmpty && rest.head? != some 0x5F && separated false rest
    else separated true rest

def unsigned (text : Bytes) : Except Fault Nat := do
  if text.isEmpty then throw .malformed
  let (base, digits) := baseOf text
  let value ← digitsFrom base 0 digits
  -- A base mark counts as a digit; so does the zero in front of an octal number.
  unless separated (base ≠ 10) digits do throw .malformed
  return value

def parse (text : Bytes) : Except Fault Int := do
  match text with
  | 0x2D :: rest =>
    let value ← unsigned rest
    if 0x8000000000000000 < value then throw .outOfRange
    return -value
  | 0x2B :: rest => positive (← unsigned rest)
  | _ => positive (← unsigned text)
where
  /-- A value without a minus sign. -/
  positive (value : Nat) : Except Fault Int :=
    if 0x8000000000000000 ≤ value then .error .outOfRange else .ok value

end GrammarCompletion.Integer
