import GrammarCompletion.Command.Flags

/-!
# Finding a command

The commands form a tree. The words among the arguments, which are neither flags nor their values,
lead down the tree as far as they name commands.
-/

namespace GrammarCompletion

inductive CommandName where
  | root
  | complete
  | serve
  | ebnf
  | check
  | listing
  | help
  /-- What is said on completing the command line itself. -/
  | shell
  deriving DecidableEq, Inhabited

namespace CommandName

def children : CommandName → List (Bytes × CommandName)
  | .root => [("complete", .complete), ("lsp", .serve), ("ebnf", .ebnf), ("help", .help),
      ("completion", .shell)]
  | .ebnf => [("check", .check), ("atn", .listing)]
  | _ => []

def flags : CommandName → List Flag
  | .complete => [⟨"lang", .text⟩, ⟨"builtin", .text⟩, ⟨"offset", .integer⟩, ⟨"format", .text⟩]
  | .serve => [⟨"lang", .text⟩, ⟨"builtin", .text⟩]
  | .check | .listing => [⟨"start", .text⟩, ⟨"skip", .list⟩]
  | _ => []

/-- Whether an argument is a flag whose value is the next argument, as far as one can tell without
knowing the flags. -/
def takesNext (argument : Bytes) : Bool :=
  !argument.contains Flags.equals &&
    (argument.take 2 = [Flags.dash, Flags.dash] ||
      (argument.head? = some Flags.dash && argument.length = 2))

/-- The words among the arguments. A flag in front of the last argument ends them. -/
def words : List Bytes → List Bytes
  | [] => []
  | [argument] => if argument.isEmpty ∨ argument.head? = some Flags.dash then [] else [argument]
  | argument :: next :: rest =>
    if argument = [Flags.dash, Flags.dash] then []
    else if takesNext argument then if rest.isEmpty then [] else words rest
    else if argument.isEmpty ∨ argument.head? = some Flags.dash then words (next :: rest)
    else argument :: words (next :: rest)

def dropWord (word : Bytes) : List Bytes → List Bytes
  | [] => []
  | [argument] => if argument = word then [] else [argument]
  | argument :: next :: rest =>
    if argument = [Flags.dash, Flags.dash] then argument :: next :: rest
    else if takesNext argument then argument :: next :: dropWord word rest
    else if argument = word ∧ argument.head? ≠ some Flags.dash then next :: rest
    else argument :: dropWord word (next :: rest)

/-- Follow the words down the tree, `depth` levels at most; the other arguments stay. -/
def descend : (depth : Nat) → CommandName → List Bytes → CommandName × List Bytes
  | 0, c, arguments => (c, arguments)
  | depth + 1, c, arguments =>
    match words arguments with
    | [] => (c, arguments)
    | word :: _ =>
      match c.children.lookup word with
      | none => (c, arguments)
      | some child => descend depth child (dropWord word arguments)

/-- The least number of bytes to add, drop or replace to get from one text to another; `row` holds
these numbers for the beginnings of the other text. -/
def distanceFrom (target : Bytes) : (row : List Nat) → Bytes → Nat
  | row, [] => row.getLast?.getD 0
  | row, b :: rest =>
    let first := row.headD 0 + 1
    let next := (target.zip (row.zip (row.drop 1))).foldl
      (fun (done : List Nat) (t, diagonal, above) =>
        let left := done.headD 0
        (if t = b then diagonal else 1 + min diagonal (min above left)) :: done) [first]
    distanceFrom target next.reverse rest

def distance (a b : Bytes) : Nat :=
  let target := b.map Integer.lower
  distanceFrom target (List.range (target.length + 1)) (a.map Integer.lower)

/-- The names that are suggested for a word that is none; help is never suggested. -/
def suggestions (word : Bytes) : List Bytes :=
  ((root.children.filter fun (_, c) => c ≠ .help).map Prod.fst).filter fun name =>
    distance word name ≤ 2 || (word.map Integer.lower).isPrefixOf name

end CommandName

end GrammarCompletion
