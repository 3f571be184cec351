import GrammarCompletion.Yaml.Scalar

/-!
# Reading YAML

Mappings and sequences are written one entry a line, at one column, or between brackets. Of several
documents in a text the first is read. Anchors, tags and block scalars are not read.
-/

namespace GrammarCompletion.Yaml

/-- A place in a text: what is left, its column, and whether only blanks stand before it in its
line. -/
structure Cursor where
  rest : Bytes
  column : Nat
  isFresh : Bool

namespace Cursor

/-- Pass over blanks, line ends and comments. A tab is no indentation. -/
def skipFrom : (inComment : Bool) → Bytes → Nat → Bool → Cursor
  | _, [], column, isFresh => ⟨[], column, isFresh⟩
  | inComment, b :: rest, column, isFresh =>
    if b = Bytes.newline then skipFrom false rest 0 true
    else if inComment ∨ b = 0x23 then skipFrom true rest (column + 1) isFresh
    else if b = space ∨ (b = tab ∧ !isFresh) then skipFrom false rest (column + 1) isFresh
    else ⟨b :: rest, column, isFresh⟩

def skip (c : Cursor) : Cursor := skipFrom false c.rest c.column c.isFresh

def atEnd (c : Cursor) : Bool := c.rest.isEmpty

def atMark (c : Cursor) : Bool := c.isFresh && c.column = 0 && atDocumentMark c.rest

def atDash (c : Cursor) : Bool :=
  match c.rest with
  | b :: rest => b == 0x2D && atBlank rest
  | [] => false

/-- Behind a scalar or a bracket; the column no longer matters. -/
def behind (rest : Bytes) : Cursor := ⟨rest, 0, false⟩

end Cursor

def skipFlow (text : Bytes) : Bytes := (Cursor.skipFrom false text 0 false).rest

mutual

def flowNode : (fuel : Nat) → Bytes → Except Error (Node × Bytes)
  | 0, _ => .error .malformed
  | _ + 1, [] => .error .malformed
  | fuel + 1, b :: rest =>
    if b = 0x5B then do
      let (items, rest) ← flowItems fuel (skipFlow rest)
      return (.sequence items, rest)
    else if b = 0x7B then do
      let (entries, rest) ← flowEntries fuel (skipFlow rest)
      return (.mapping entries, rest)
    else if b = 0x22 ∨ b = 0x27 then do
      let (text, rest) ← quoted b rest
      return (.scalar text false, rest)
    else do
      let (text, rest) ← plain true 0 (b :: rest)
      return (.scalar text true, rest)

def flowItems : (fuel : Nat) → Bytes → Except Error (List Node × Bytes)
  | 0, _ => .error .malformed
  | _ + 1, [] => .error .malformed
  | fuel + 1, b :: rest =>
    if b = 0x5D then .ok ([], rest)
    else do
      let (item, rest) ← flowNode fuel (b :: rest)
      match skipFlow rest with
      | [] => throw .malformed
      | c :: rest =>
        if c = 0x2C then
          let (items, rest) ← flowItems fuel (skipFlow rest)
          return (item :: items, rest)
        else if c = 0x5D then return ([item], rest)
        else throw .malformed

def flowEntries : (fuel : Nat) → Bytes → Except Error (List (Node × Node) × Bytes)
  | 0, _ => .error .malformed
  | _ + 1, [] => .error .malformed
  | fuel + 1, b :: rest =>
    if b = 0x7D then .ok ([], rest)
    else do
      let (key, rest) ← flowNode fuel (b :: rest)
      let (value, rest) ← flowValue fuel (skipFlow rest)
      match skipFlow rest with
      | [] => throw .malformed
      | c :: rest =>
        if c = 0x2C then
          let (entries, rest) ← flowEntries fuel (skipFlow rest)
          return ((key, value) :: entries, rest)
        else if c = 0x7D then return ([(key, value)], rest)
        else throw .malformed

def flowValue : (fuel : Nat) → Bytes → Except Error (Node × Bytes)
  | 0, _ => .error .malformed
  | _ + 1, [] => .ok (Node.null, [])
  | fuel + 1, b :: rest =>
    if b = 0x3A then
      match skipFlow rest with
      | [] => .error .malformed
      | c :: rest =>
        if c = 0x2C ∨ c = 0x7D then .ok (Node.null, c :: rest) else flowNode fuel (c :: rest)
    else .ok (Node.null, b :: rest)

end

/-- A key in a line with the text behind its colon, if this is a key. -/
def key? (text : Bytes) : Except Error (Option (Node × Bytes)) := do
  let (node, rest) ←
    match text with
    | [] => throw .malformed
    | b :: rest =>
      if b = 0x22 ∨ b = 0x27 then do
        let (text, rest) ← quoted b rest
        pure (Node.scalar text false, dropBlanks rest)
      else if startsPlain text then
        let (line, rest) := plainLine false false text
        pure (Node.scalar (trimEnd line) true, rest)
      else pure (Node.null, [])
  match rest with
  | b :: rest => return if b = 0x3A ∧ atBlank rest then some (node, rest) else none
  | [] => return none

mutual

/-- The node at a cursor. Further lines of a scalar start at least in the column `least`; `isBlock`
says whether entries one a line may start here. -/
def blockNode : (fuel : Nat) → (least : Nat) → (isBlock : Bool) → Cursor →
    Except Error (Node × Cursor)
  | 0, _, _, _ => .error .malformed
  | fuel + 1, least, isBlock, c =>
    match c.rest with
    | [] => .error .malformed
    | b :: rest =>
      if c.atDash then
        if isBlock then do
          let (items, c) ← blockItems fuel c.column c
          return (.sequence items, c)
        else .error .malformed
      else if b = 0x5B ∨ b = 0x7B then do
        let (node, rest) ← flowNode (c.rest.length + 1) c.rest
        return (node, Cursor.behind rest)
      else do
        match ← key? c.rest with
        | some _ =>
          if isBlock then
            let (entries, c) ← blockEntries fuel c.column c
            return (.mapping entries, c)
          else throw .malformed
        | none =>
          if b = 0x22 ∨ b = 0x27 then
            let (text, rest) ← quoted b rest
            return (.scalar text false, Cursor.behind rest)
          else
            let (text, rest) ← plain false least c.rest
            return (.scalar text true, Cursor.behind rest)

def blockItems : (fuel : Nat) → (column : Nat) → Cursor → Except Error (List Node × Cursor)
  | 0, _, _ => .error .malformed
  | fuel + 1, column, c => do
    let start := Cursor.skip ⟨c.rest.drop 1, column + 1, false⟩
    let (item, c) ←
      if start.atEnd ∨ start.atMark ∨ (start.isFresh ∧ start.column ≤ column) then
        pure (Node.null, start)
      else blockNode fuel (column + 1) true start
    let c := c.skip
    if c.atEnd then return ([item], c)
    else if !c.isFresh then throw .malformed
    else if c.column = column ∧ c.atDash ∧ !c.atMark then
      let (items, c) ← blockItems fuel column c
      return (item :: items, c)
    else if column < c.column then throw .malformed
    else return ([item], c)

def blockEntries : (fuel : Nat) → (column : Nat) → Cursor →
    Except Error (List (Node × Node) × Cursor)
  | 0, _, _ => .error .malformed
  | fuel + 1, column, c => do
    match ← key? c.rest with
    | none => throw .malformed
    | some (key, rest) =>
      let start := Cursor.skip ⟨rest, column + 1, false⟩
      let (value, c) ←
        if start.atEnd ∨ start.atMark then pure (Node.null, start)
        else if !start.isFresh then blockNode fuel (column + 1) false start
        else if column < start.column then blockNode fuel (column + 1) true start
        else if start.column = column ∧ start.atDash then do
          let (items, c) ← blockItems fuel column start
          pure (Node.sequence items, c)
        else pure (Node.null, start)
      let c := c.skip
      if c.atEnd ∨ c.atMark then return ([(key, value)], c)
      else if !c.isFresh ∨ column < c.column then throw .malformed
      else if c.column = column then
        let (entries, c) ← blockEntries fuel column c
        return ((key, value) :: entries, c)
      else return ([(key, value)], c)

end

def isAllowed : Rune → Bool
  | .stray _ => false
  | .char c =>
    let code := c.toNat
    code = 0x09 || code = 0x0A || code = 0x0D || (0x20 ≤ code && code ≤ 0x7E) || code = 0x85 ||
      (0xA0 ≤ code && code ≤ 0xFFFD && code ≠ 0xFEFF) || 0x10000 ≤ code

def uniformLines : Bytes → Bytes
  | [] => []
  | [b] => [if b = 0x0D then Bytes.newline else b]
  | b :: c :: rest =>
    if b = 0x0D then
      Bytes.newline :: if c = Bytes.newline then uniformLines rest else uniformLines (c :: rest)
    else b :: uniformLines (c :: rest)

def dropMark (text : Bytes) : Bytes :=
  if text.take 3 = [0xEF, 0xBB, 0xBF] then text.drop 3 else text

def read (text : Bytes) : Except Error Node := do
  let text := dropMark text
  unless text.runes.all isAllowed do throw .badCharacter
  let start := Cursor.skip ⟨uniformLines text, 0, true⟩
  if start.atEnd then throw .empty
  let isMarked := start.atMark
  let c := if isMarked then Cursor.skip ⟨start.rest.drop 3, 3, false⟩ else start
  if isMarked && (c.atEnd || c.atMark) then return Node.null
  let (node, c) ← blockNode (3 * text.length + 3) 0 c.isFresh c
  let c := c.skip
  if c.atEnd ∨ c.atMark then return node else throw .malformed

end GrammarCompletion.Yaml
