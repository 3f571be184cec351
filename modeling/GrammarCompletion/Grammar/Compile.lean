import GrammarCompletion.Automaton.Build
import GrammarCompletion.Grammar.TokenTable

/-!
# From productions to an automaton

Every parser rule becomes a sub-graph. An expression becomes a part of it with one entry and one
exit, such that the runs from entry to exit spell out what the expression stands for.
-/

namespace GrammarCompletion

open Ebnf

inductive CompileFault where
  | noProduction (name : Bytes)
  /-- The name of a fragment. -/
  | fragment (name : Bytes)
  /-- A character range. -/
  | range

structure CompileError where
  rule : Bytes
  fault : CompileFault

namespace CompileFault

def message : CompileFault → Bytes
  | .noProduction name => "unknown production " ++ name
  | .fragment name =>
    "unsupported expression: fragment " ++ name ++ " referenced from a parser rule"
  | .range => "unsupported expression: character range in a parser rule"

end CompileFault

namespace CompileError

def message (e : CompileError) : Bytes := "rule " ++ e.rule ++ ": " ++ e.fault.message

end CompileError

structure Part where
  entry : Nat
  exit : Nat

structure Bindings where
  table : TokenTable
  /-- The names of the parser rules; the position is the index of the rule. -/
  rules : List Bytes

namespace Compile

abbrev Building := StateT Automaton (Except CompileFault)

def newState (rule : Nat) (kind : StateKind) : Building Nat := fun a =>
  .ok (a.nextState, a.addState rule kind)

def connect (source : Nat) (t : Transition) : Building Unit := fun a => .ok ((), a.connect source t)

def between (rule : Nat) (transition : (target : Nat) → Transition) : Building Part := do
  let entry ← newState rule .basic
  let exit ← newState rule .basic
  connect entry (transition exit)
  return ⟨entry, exit⟩

def passage (rule : Nat) : Building Part := do
  let s ← newState rule .basic
  return ⟨s, s⟩

mutual

def expr (b : Bindings) (rule : Nat) : Expr → Building Part
  | .literal text =>
    between rule fun target => .atom target ((b.table.literalSymbol? text.text).getD Symbol.invalid)
  | .name n =>
    match kindOf n.text with
    | .token =>
      match b.table.tokenSymbol? n.text with
      | some symbol => between rule fun target => .atom target symbol
      | none => throw (.noProduction n.text)
    | .rule =>
      match b.rules.idxOf? n.text with
      | some callee => between rule fun follow => .call callee follow
      | none => throw (.noProduction n.text)
    | .fragment => throw (.fragment n.text)
  | .range _ _ => throw .range
  | .sequence items => chain b rule none items
  | .alternative items => do
    let start ← newState rule .blockStart
    let stop ← newState rule .blockEnd
    branches b rule start stop items
    return ⟨start, stop⟩
  | .group body => expr b rule body
  | .option body => do
    let inner ← expr b rule body
    let start ← newState rule .blockStart
    let stop ← newState rule .blockEnd
    connect start (.epsilon inner.entry)
    connect start (.epsilon stop)
    connect inner.exit (.epsilon stop)
    return ⟨start, stop⟩
  | .repetition body => do
    let entry ← newState rule .starLoopEntry
    let blockStart ← newState rule .starBlockStart
    let blockEnd ← newState rule .blockEnd
    let loopBack ← newState rule .starLoopBack
    let loopEnd ← newState rule .loopEnd
    let inner ← expr b rule body
    connect entry (.epsilon blockStart)
    connect entry (.epsilon loopEnd)
    connect blockStart (.epsilon inner.entry)
    connect inner.exit (.epsilon blockEnd)
    connect blockEnd (.epsilon loopBack)
    connect loopBack (.epsilon entry)
    return ⟨entry, loopEnd⟩

def chain (b : Bindings) (rule : Nat) : (before : Option Part) → List Expr → Building Part
  | none, [] => passage rule
  | some part, [] => return part
  | none, x :: rest => do
    let part ← expr b rule x
    chain b rule (some part) rest
  | some before, x :: rest => do
    let part ← expr b rule x
    connect before.exit (.epsilon part.entry)
    chain b rule (some ⟨before.entry, part.exit⟩) rest

def branches (b : Bindings) (rule start stop : Nat) : List Expr → Building Unit
  | [] => return
  | x :: rest => do
    let part ← expr b rule x
    connect start (.epsilon part.entry)
    connect part.exit (.epsilon stop)
    branches b rule start stop rest

end

def body (b : Bindings) (rule : Nat) : Option Expr → Building Part
  | none => passage rule
  | some e => expr b rule e

/-- Fill in the rule at an index; its states are those that its declaration gave it. -/
def rule (b : Bindings) (index : Nat) (p : Production) : Building Unit := do
  let part ← body b index p.body
  connect (2 * index) (.epsilon part.entry)
  connect part.exit (.epsilon (2 * index + 1))

def rulesFrom (b : Bindings) : (index : Nat) → List Production → Automaton →
    Except CompileError Automaton
  | _, [], a => .ok a
  | index, p :: rest, a =>
    match rule b index p a with
    | .error fault => .error ⟨p.name.text, fault⟩
    | .ok (_, a) => rulesFrom b (index + 1) rest a

/-- The parser rules of a source, the start rule first and the others in declaration order. -/
def ruleProductions (source : Source) (start : Bytes) : List Production :=
  let rules := source.ofKind .rule
  rules.filter (·.name.text == start) ++ rules.filter (·.name.text != start)

def automaton (source : Source) (start : Bytes) (table : TokenTable) :
    Except CompileError Automaton := do
  let productions := ruleProductions source start
  let names := productions.map fun p => p.name.text
  let a ← rulesFrom ⟨table, names⟩ 0 productions (names.foldl Automaton.addRule Automaton.empty)
  return a.widen table.maxSymbol

end Compile

end GrammarCompletion
