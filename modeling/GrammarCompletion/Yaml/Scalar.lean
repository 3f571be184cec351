import GrammarCompletion.Text.Rune
import GrammarCompletion.Yaml.Node

/-!
# YAML scalars

A quoted scalar ends with its quote. A plain scalar ends before a comment, before a colon with a
blank behind it and, between brackets, before a comma or a bracket. Both may go on in the next line:
the end of line is then read as a blank, and each empty line as an end of line.
-/

namespace GrammarCompletion.Yaml

def space : UInt8 := 0x20
def tab : UInt8 := 0x09

def isBlank (b : UInt8) : Bool := b == space || b == tab

def atBlank : Bytes → Bool
  | [] => true
  | b :: _ => isBlank b || b == Bytes.newline

def dropBlanks (text : Bytes) : Bytes := text.dropWhile isBlank

/-- Pass over blanks and line ends; the number of line ends comes with it. -/
def dropLines : Bytes → Nat × Bytes
  | [] => (0, [])
  | b :: rest =>
    if b = Bytes.newline then
      let (n, rest) := dropLines rest
      (n + 1, rest)
    else if isBlank b then dropLines rest
    else (0, b :: rest)

/-- What line ends between two parts of a scalar stand for. -/
def folded (lineEnds : Nat) : Bytes :=
  if lineEnds ≤ 1 then [space] else List.replicate (lineEnds - 1) Bytes.newline

def trimEnd (text : Bytes) : Bytes := (text.reverse.dropWhile isBlank).reverse

/-! ## Quoted scalars -/

def escapes : List (UInt8 × Bytes) := [
  (0x30, [0]), (0x61, [7]), (0x62, [8]), (0x74, [9]), (0x09, [9]), (0x6E, [10]), (0x76, [11]),
  (0x66, [12]), (0x72, [13]), (0x65, [0x1B]), (0x20, [0x20]), (0x22, [0x22]), (0x27, [0x27]),
  (0x2F, [0x2F]), (0x5C, [0x5C]), (0x4E, Bytes.ofCode 0x85), (0x5F, Bytes.ofCode 0xA0),
  (0x4C, Bytes.ofCode 0x2028), (0x50, Bytes.ofCode 0x2029)]

def escapeDigits (b : UInt8) : Nat :=
  if b = 0x78 then 2 else if b = 0x75 then 4 else if b = 0x55 then 8 else 0

def readHex : (count : Nat) → (acc : Nat) → Bytes → Option (Nat × Bytes)
  | 0, acc, rest => some (acc, rest)
  | count + 1, acc, b :: rest =>
    match Bytes.hexValue? b with
    | some d => readHex count (16 * acc + d) rest
    | none => none
  | _ + 1, _, [] => none

def readEscape : Bytes → Option (Bytes × Bytes)
  | [] => none
  | b :: rest =>
    match escapes.lookup b with
    | some value => some (value, rest)
    | none =>
      match escapeDigits b with
      | 0 => none
      | count =>
        match readHex count 0 rest with
        | none => none
        | some (code, rest) => if code.isValidChar then some (Bytes.ofCode code, rest) else none

/-- The rest of a quoted scalar, behind what is already read; `fuel` bounds its length. -/
def quotedFuel (mark : UInt8) :
    (fuel : Nat) → (read : Bytes) → Bytes → Except Error (Bytes × Bytes)
  | 0, _, _ => .error .malformed
  | _ + 1, _, [] => .error .malformed
  | fuel + 1, read, b :: rest =>
    if b = mark then
      match rest with
      | next :: more =>
        if mark = 0x27 ∧ next = mark then quotedFuel mark fuel (read ++ [mark]) more
        else .ok (read, rest)
      | [] => .ok (read, rest)
    else if mark = 0x22 ∧ b = 0x5C then
      match rest with
      | [] => .error .malformed
      | next :: more =>
        if next = Bytes.newline then quotedFuel mark fuel read (dropBlanks more)
        else
          match readEscape rest with
          | some (value, more) => quotedFuel mark fuel (read ++ value) more
          | none => .error .malformed
    else if isBlank b ∨ b = Bytes.newline then
      let blanks := (b :: rest).takeWhile isBlank
      let (lineEnds, more) := dropLines (b :: rest)
      if lineEnds = 0 then quotedFuel mark fuel (read ++ blanks) ((b :: rest).drop blanks.length)
      else quotedFuel mark fuel (read ++ folded lineEnds) more
    else quotedFuel mark fuel (read ++ [b]) rest

def quoted (mark : UInt8) (text : Bytes) : Except Error (Bytes × Bytes) :=
  quotedFuel mark (text.length + 1) [] text

/-! ## Plain scalars -/

def isFlowMark (b : UInt8) : Bool :=
  b == 0x2C || b == 0x5B || b == 0x5D || b == 0x7B || b == 0x7D

def startsPlain : Bytes → Bool
  | [] => false
  | b :: rest =>
    if b = 0x2D ∨ b = 0x3F ∨ b = 0x3A then !atBlank rest
    else !(atBlank (b :: rest) || isFlowMark b ||
      [0x23, 0x26, 0x2A, 0x21, 0x7C, 0x3E, 0x27, 0x22, 0x25, 0x40, 0x60].contains b)

def plainLine (inFlow : Bool) : (afterBlank : Bool) → Bytes → Bytes × Bytes
  | _, [] => ([], [])
  | afterBlank, b :: rest =>
    if b = Bytes.newline ∨ (b = 0x3A ∧ atBlank rest) ∨ (b = 0x23 ∧ afterBlank) ∨
        (inFlow ∧ isFlowMark b) then
      ([], b :: rest)
    else
      let (text, more) := plainLine inFlow (isBlank b) rest
      (b :: text, more)

def atDocumentMark (line : Bytes) : Bool :=
  (line.take 3 = [0x2D, 0x2D, 0x2D] || line.take 3 = [0x2E, 0x2E, 0x2E]) && atBlank (line.drop 3)

def dropToColumn : Nat → Bytes → Nat × Bytes
  | column, [] => (column, [])
  | column, b :: rest =>
    if b = Bytes.newline then dropToColumn 0 rest
    else if isBlank b then dropToColumn (column + 1) rest
    else (column, b :: rest)

def continues (inFlow : Bool) (least column : Nat) (rest : Bytes) : Bool :=
  match rest with
  | [] => false
  | b :: more =>
    if b = 0x23 then false
    else if inFlow then !isFlowMark b && !(b = 0x3A && atBlank more)
    else least ≤ column && !(column = 0 && atDocumentMark rest)

/-- A plain scalar behind what is already read. Further lines start at least in the column
`least`; `fuel` bounds their number. -/
def plainFuel (inFlow : Bool) (least : Nat) :
    (fuel : Nat) → (read : Bytes) → Bytes → Bytes × Bytes
  | 0, read, rest => (read, rest)
  | fuel + 1, read, rest =>
    let (line, rest) := plainLine inFlow false rest
    let read := read ++ trimEnd line
    match rest with
    | [] => (read, [])
    | b :: _ =>
      if b = Bytes.newline then
        let (lineEnds, _) := dropLines rest
        let (column, more) := dropToColumn 0 rest
        if continues inFlow least column more then
          plainFuel inFlow least fuel (read ++ folded lineEnds) more
        else (read, rest)
      else (read, rest)

def plain (inFlow : Bool) (least : Nat) (text : Bytes) : Except Error (Bytes × Bytes) :=
  if startsPlain text then .ok (plainFuel inFlow least (text.length + 1) [] text)
  else .error .malformed

end GrammarCompletion.Yaml
