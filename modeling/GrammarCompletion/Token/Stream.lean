import GrammarCompletion.Token.Basic

/-!
# Token streams

A stream holds all tokens of a text, the last of which ends the input, and a position. Moving and
looking ahead pass over hidden tokens but never beyond the last token.
-/

namespace GrammarCompletion

/-- Tokens with a position. There is always a last token. -/
structure TokenStream where
  tokens : Array Token
  position : Nat
  nonempty : 0 < tokens.size

namespace TokenStream

def endAfter (tokens : List Token) : Token :=
  match tokens.getLast? with
  | none => { symbol := Symbol.endOfInput }
  | some last =>
    { symbol := Symbol.endOfInput, start := last.stop, stop := last.stop, line := last.line,
      column := last.column }

/-- The tokens with one that ends the input, unless the last one does. -/
def closed (tokens : List Token) : List Token :=
  match tokens.getLast? with
  | some last => if last.isEnd then tokens else tokens ++ [endAfter tokens]
  | none => [endAfter []]

def numbered (tokens : List Token) : List Token :=
  tokens.mapIdx fun i t => { t with index := i }

/-- The first visible position at or behind `i`, at most the last position. -/
def skipHidden (tokens : Array Token) (i : Nat) : Nat :=
  if h : i + 1 < tokens.size then
    if tokens[i].isVisible then i else skipHidden tokens (i + 1)
  else tokens.size - 1
termination_by tokens.size - i

theorem numbered_closed_length_pos (tokens : List Token) : 0 < (numbered (closed tokens)).length := by
  cases tokens with
  | nil => simp [numbered, closed]
  | cons t ts =>
    simp only [numbered, closed, List.length_mapIdx]
    split
    · split <;> simp
    · simp

def ofTokens (tokens : List Token) : TokenStream :=
  let all := (numbered (closed tokens)).toArray
  ⟨all, skipHidden all 0, numbered_closed_length_pos tokens⟩

def size (s : TokenStream) : Nat := s.tokens.size

def last (s : TokenStream) : Token :=
  have := s.nonempty
  s.tokens[s.tokens.size - 1]

def seek (s : TokenStream) (i : Int) : TokenStream :=
  { s with position := skipHidden s.tokens i.toNat }

/-- The token at `i`, hidden or not; outside the stream, the last token. -/
def get (s : TokenStream) (i : Int) : Token :=
  if i < 0 then s.last else s.tokens[i.toNat]?.getD s.last

def forward (tokens : Array Token) : (count : Nat) → Nat → Nat
  | 0, i => i
  | count + 1, i =>
    if i + 1 < tokens.size then forward tokens count (skipHidden tokens (i + 1)) else i

/-- The `k`-th visible token from the position on; without one, the last token. -/
def lookahead (s : TokenStream) (k : Int) : Token :=
  if k < 1 then s.last
  else s.get (forward s.tokens (k.toNat - 1) (skipHidden s.tokens s.position))

end TokenStream

end GrammarCompletion
