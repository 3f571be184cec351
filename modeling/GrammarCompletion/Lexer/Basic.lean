import GrammarCompletion.Lexer.Match
import GrammarCompletion.Token.Basic

/-!
# Lexing

A lexer cuts a text into tokens. At every spot the rule with the longest match wins; of equally long
matches that of a literal rule, and then that of the rule declared first. A byte at which no rule
matches is a token of its own.
-/

namespace GrammarCompletion

open Ebnf

/-- A kind of token: what matches `body` is a token with the type `symbol`. -/
structure LexRule where
  name : Bytes
  symbol : Symbol
  body : Option Expr
  /-- Literal rules match a fixed text. -/
  isLiteral : Bool
  /-- Tokens of hidden rules are off the default channel. -/
  isHidden : Bool
  deriving Inhabited

structure Lexer where
  source : Source
  rules : List LexRule
  file : Bytes

namespace Lexer

/-- A lexer for rules in declaration order. -/
def make (source : Source) (rules : List LexRule) (file : Bytes) : Lexer :=
  ⟨source, rules.filter (·.isLiteral) ++ rules.filter (!·.isLiteral), file⟩

/-- A place in a file. Lines and columns count from one, and columns count bytes. -/
structure Position where
  file : Bytes
  line : Int
  column : Int

namespace Position

def text (p : Position) : Bytes :=
  let place : Bytes := Bytes.ofInt p.line ++ ":" ++ Bytes.ofInt p.column
  if p.file.isEmpty then place else p.file ++ ":" ++ place

end Position

/-- A text being lexed: what is left of it, its place, and the number of tokens before. -/
structure Cursor where
  rest : Bytes
  index : Nat
  offset : Nat
  line : Nat
  column : Nat

namespace Cursor

def start (text : Bytes) : Cursor := ⟨text, 0, 0, 1, 1⟩

def advance : Nat → Cursor → Cursor
  | 0, c => c
  | n + 1, c =>
    match c.rest with
    | [] => c
    | b :: rest =>
      if b = Bytes.newline then
        advance n { c with rest, offset := c.offset + 1, line := c.line + 1, column := 1 }
      else advance n { c with rest, offset := c.offset + 1, column := c.column + 1 }

theorem rest_advance (n : Nat) (c : Cursor) : (c.advance n).rest = c.rest.drop n := by
  induction n generalizing c with
  | zero => simp [advance]
  | succ n ih =>
    unfold advance
    split
    · next empty => simp [empty]
    · next b rest more =>
      split <;> simp [ih, more]

end Cursor

def position (l : Lexer) (c : Cursor) : Position := ⟨l.file, c.line, c.column⟩

/-- Of some rules, the first with the longest match at a spot that is longer than that of a rule
before them. -/
def bestOf (source : Source) (s : Spot) :
    List LexRule → Memo → Option (LexRule × Nat) → Option (LexRule × Nat)
  | [], _, best => best
  | rule :: rules, memo, best =>
    match rule.body with
    | none => bestOf source s rules memo best
    | some body =>
      let (n, memo) := matchExpr source [] body s memo
      if (best.map Prod.snd).getD 0 < n then bestOf source s rules memo (some (rule, n))
      else bestOf source s rules memo best

def bestAt? (l : Lexer) (s : Spot) : Option (LexRule × Nat) := bestOf l.source s l.rules [] none

def best? (l : Lexer) (rest : Bytes) : Option (LexRule × Nat) := l.bestAt? ⟨0, rest⟩

def tokenBetween (c next : Cursor) (symbol : Symbol) (text : Bytes) (channel : Int) : Token :=
  ⟨c.index, symbol, text, channel, c.offset, next.offset, c.line, c.column⟩

/-- The next token, and the cursor behind it. At the end of the text it is the end of input. -/
def next (l : Lexer) (c : Cursor) : Token × Cursor :=
  match c.rest with
  | [] =>
    (tokenBetween c c Symbol.endOfInput [] Token.defaultChannel, { c with index := c.index + 1 })
  | b :: _ =>
    match l.best? c.rest with
    | none =>
      let stop := c.advance 1
      (tokenBetween c stop Symbol.invalid (Bytes.ofCode b.toNat) Token.defaultChannel,
        { stop with index := c.index + 1 })
    | some (rule, n) =>
      let stop := c.advance n
      let channel := if rule.isHidden then Token.hiddenChannel else Token.defaultChannel
      (tokenBetween c stop rule.symbol (c.rest.take n) channel, { stop with index := c.index + 1 })

theorem bestOf_pos {source : Source} {s : Spot} {rules : List LexRule} {memo : Memo}
    {best : Option (LexRule × Nat)} (positive : ∀ r ∈ best, 0 < r.2) :
    ∀ r ∈ bestOf source s rules memo best, 0 < r.2 := by
  fun_induction bestOf source s rules memo best with
  | case1 => exact positive
  | case2 _ _ _ _ _ ih => exact ih positive
  | case3 _ _ _ best _ _ n _ _ longer ih =>
    apply ih
    intro r member
    cases member
    exact Nat.lt_of_le_of_lt (Nat.zero_le _) longer
  | case4 _ _ _ _ _ _ _ _ _ _ ih => exact ih positive

theorem next_shorter (l : Lexer) {c : Cursor} (more : c.rest ≠ []) :
    (l.next c).2.rest.length < c.rest.length := by
  unfold next
  split
  · next empty => exact absurd empty more
  · next b rest front =>
    split
    · simp [Cursor.rest_advance, front]
    · next rule n found =>
      have positive : 0 < n := bestOf_pos (by simp) (rule, n) found
      have length : 0 < c.rest.length := List.length_pos_iff.mpr more
      simp only [Cursor.rest_advance, List.length_drop]
      omega

def tokensFrom (l : Lexer) (c : Cursor) : List Token × Cursor :=
  let step := l.next c
  if _more : c.rest ≠ [] then
    let (tokens, stop) := l.tokensFrom step.2
    (step.1 :: tokens, stop)
  else ([step.1], step.2)
termination_by c.rest.length
decreasing_by exact l.next_shorter _more

def tokenize (l : Lexer) (text : Bytes) : List Token × Cursor := l.tokensFrom (Cursor.start text)

end Lexer

end GrammarCompletion
