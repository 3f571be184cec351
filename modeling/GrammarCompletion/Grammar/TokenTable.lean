import GrammarCompletion.Ebnf.Expr
import GrammarCompletion.Ebnf.Kind
import GrammarCompletion.Lexer.Basic
import GrammarCompletion.Vocabulary

/-!
# Token types of a grammar

Token productions take the first token types in declaration order. Then come the literals of parser
rules in the order in which they appear, unless a token production consists of that literal alone.
-/

namespace GrammarCompletion

open Ebnf

namespace Ebnf

namespace Expr

mutual

/-- The fixed texts in an expression, in order; the ends of ranges are none. -/
def literals : Expr → List Bytes
  | .literal text => [text.text]
  | .range _ _ | .name _ => []
  | .sequence items | .alternative items => literalsOfAll items
  | .group body | .option body | .repetition body => body.literals

def literalsOfAll : List Expr → List Bytes
  | [] => []
  | x :: rest => x.literals ++ literalsOfAll rest

end

end Expr

namespace Source

def ofKind (source : Source) (kind : Kind) : List Production :=
  source.filter fun p => kindOf p.name.text == kind

end Source

end Ebnf

structure TokenEntry where
  /-- The name of the token production; empty for a literal of a parser rule. -/
  name : Bytes
  /-- The text that tokens of the type always have. -/
  literal : Option Bytes
  body : Option Expr
  isHidden : Bool
  deriving Inhabited

/-- The token types of a grammar; that of the first entry is one. -/
structure TokenTable where
  entries : List TokenEntry

namespace TokenEntry

def ofProduction (skip : List Bytes) (p : Production) : TokenEntry :=
  { name := p.name.text
    literal := match p.body with
      | some (.literal text) => some text.text
      | _ => none
    body := p.body
    isHidden := skip.contains p.name.text }

def ofLiteral (text : Bytes) : TokenEntry :=
  { name := [], literal := some text, body := some (.literal (.unplaced text)),
    isHidden := false }

def literalName (e : TokenEntry) : Bytes := (e.literal.map Vocabulary.literalName).getD []

def lexRule (symbol : Symbol) (e : TokenEntry) : LexRule :=
  { name := if e.name.isEmpty then e.literalName else e.name
    symbol := symbol
    body := e.body
    isLiteral := e.literal.isSome
    isHidden := e.isHidden }

end TokenEntry

namespace TokenTable

def symbolAt (i : Nat) : Symbol := Int64.ofNat (i + 1)

/-- The type of the first token that is a literal alone. -/
def literalSymbol? (t : TokenTable) (text : Bytes) : Option Symbol :=
  (t.entries.findIdx? fun e => e.literal == some text).map symbolAt

def tokenSymbol? (t : TokenTable) (name : Bytes) : Option Symbol :=
  (t.entries.findIdx? fun e => !e.name.isEmpty && e.name == name).map symbolAt

def addLiteral (t : TokenTable) (text : Bytes) : TokenTable :=
  if (t.literalSymbol? text).isSome then t else ⟨t.entries ++ [TokenEntry.ofLiteral text]⟩

def ofSource (source : Source) (skip : List Bytes) : TokenTable :=
  let literals := (source.ofKind .rule).flatMap fun p => (p.body.map Expr.literals).getD []
  literals.foldl addLiteral ⟨(source.ofKind .token).map (TokenEntry.ofProduction skip)⟩

def maxSymbol (t : TokenTable) : Symbol := Int64.ofNat t.entries.length

def vocabulary (t : TokenTable) : Vocabulary :=
  ⟨([] :: t.entries.map TokenEntry.literalName).toArray,
    ([] :: t.entries.map TokenEntry.name).toArray⟩

def lexRules (t : TokenTable) : List LexRule :=
  t.entries.mapIdx fun i e => e.lexRule (symbolAt i)

end TokenTable

end GrammarCompletion
