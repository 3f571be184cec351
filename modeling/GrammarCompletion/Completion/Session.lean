import GrammarCompletion.Completion.Cache
import GrammarCompletion.Completion.Candidates
import GrammarCompletion.Token.Basic

/-!
# Sessions

An engine is an automaton with the caller's preferences: rules to be proposed as a whole, and
tokens never to be proposed.

A session is the changing state of one completion request. It remembers where each rule entered so
far can end, so that no rule is walked twice from the same token.
-/

namespace GrammarCompletion

def insertAscending [LT α] [DecidableLT α] (x : α) : List α → List α
  | [] => [x]
  | y :: ys => if x < y then x :: y :: ys else if y < x then y :: insertAscending x ys else y :: ys

/-- Preferred rules and ignored tokens are in ascending order and without repetitions. -/
structure Engine where
  automaton : Automaton
  identity : CacheIdentity
  preferred : List Int
  ignored : List Symbol

namespace Engine

def make (automaton : Automaton) (identity : CacheIdentity) (preferred : List Int)
    (ignored : List Symbol) : Engine where
  automaton := automaton
  identity := identity
  preferred := preferred.foldl (fun s x => insertAscending x s) []
  ignored := ignored.foldl (fun s x => insertAscending x s) []

end Engine

structure RuleEntry where
  rule : Nat
  index : Nat
  deriving DecidableEq, Inhabited

/-- The fixed part of a request. The last token of the window is the one at the caret. -/
structure Request where
  engine : Engine
  window : Array Token
  evaluator : Option Evaluator

namespace Request

def atCaret (q : Request) (index : Nat) : Bool := q.window.size ≤ index + 1

def symbolAt (q : Request) (index : Nat) : Symbol :=
  match q.window[index]? with
  | some t => t.symbol
  | none => Symbol.endOfInput

end Request

/-- The changing part of a request. `memo` holds the ends of finished rule entries, newest first;
`reentered` the unfinished entries that were entered again; `asked` the questions put to the
evaluator, newest first. -/
structure Session where
  cache : Cache
  asked : List PredicateCall := []
  memo : List (RuleEntry × List Nat) := []
  reentered : List RuleEntry := []
  candidates : Candidates := {}
  statesProcessed : Nat := 0
  deriving Inhabited

/-- What can end a search early: a failing evaluator, or a set of symbols that cannot be listed. -/
inductive Interruption where
  | predicate (failure : PredicateFailure)
  | overlong
  deriving DecidableEq

abbrev Search := EStateM Interruption Session

namespace Session

def keyOf (q : Request) (rule : Rule) : CacheKey := ⟨rule.start, q.engine.identity⟩

def followSets (q : Request) (rule : Rule) : Search FollowSets := do
  let s ← get
  match s.cache.find? (keyOf q rule) with
  | some sets => return sets
  | none =>
    let outcome := FollowSets.ofRule q.engine.automaton q.engine.ignored q.evaluator s.asked rule
    let cache := s.cache.countStates outcome.visited
    match outcome.result with
    | .error failure =>
      -- the states of a survey that fails are counted, but nothing is stored
      set { s with cache := cache, asked := outcome.asked }
      throw (.predicate failure)
    | .ok sets =>
      set { s with cache := cache.store (keyOf q rule) sets, asked := outcome.asked }
      return sets

def ask (q : Request) (call : PredicateCall) : Search Bool := do
  let s ← get
  let (answer, asked) := askPredicate q.evaluator s.asked call
  set { s with asked := asked }
  match answer with
  | .ok holds => return holds
  | .error failure => throw (.predicate failure)

end Session

/-- A rule entry that is being walked, with the ends it gives back when it is entered again. -/
structure Frame where
  entry : RuleEntry
  seed : Option (List Nat)

/-- The rules of the frames, given innermost first, in calling order. -/
def callStack (frames : List Frame) : List Nat := (frames.map fun frame => frame.entry.rule).reverse

namespace Candidates

/-- Record the outermost preferred rule of a call stack, with the rules above it as its path.
There is no result if no rule of the stack is preferred. -/
def addPreferred? (preferred : List Int) (stack : List Nat) (c : Candidates) : Option Candidates :=
  let isOther (rule : Nat) : Bool := !preferred.contains (rule : Int)
  match stack.dropWhile isOther with
  | [] => none
  | rule :: _ => some (c.addRule rule ((stack.takeWhile isOther).map Int.ofNat))

def addListed (ignored : List Symbol) (symbols following : List Symbol) (c : Candidates) :
    Candidates :=
  symbols.foldl
    (fun c symbol =>
      if symbol = Symbol.nothing ∨ ignored.contains symbol then c else c.addToken symbol following)
    c

def addSymbols (ignored : List Symbol) (set : IntervalSet) (following : List Symbol)
    (c : Candidates) : Except Overlong Candidates :=
  set.values.map fun symbols => c.addListed ignored symbols following

/-- Record what stands at the caret below the frames and a further path: the outermost preferred
rule, or else the symbols. -/
def addBelow (engine : Engine) (frames : List Frame) (path : List Nat) (set : IntervalSet)
    (following : List Symbol) (c : Candidates) : Except Overlong Candidates :=
  if engine.preferred.isEmpty then c.addSymbols engine.ignored set following
  else
    match addPreferred? engine.preferred (callStack frames ++ path) c with
    | some c => .ok c
    | none => c.addSymbols engine.ignored set following

def addOutermost (engine : Engine) (frames : List Frame) (path : List Nat) (c : Candidates) :
    Candidates :=
  if engine.preferred.isEmpty then c
  else (addPreferred? engine.preferred (callStack frames ++ path) c).getD c

/-- Record what a rule entered at the caret below the frames starts with. A preferred rule is
recorded as a whole; otherwise each follow set stands below the rule and its own path. -/
def addFollowSets (engine : Engine) (frames : List Frame) (rule : Nat) (sets : FollowSets)
    (c : Candidates) : Except Overlong Candidates :=
  if engine.preferred.contains (rule : Int) then .ok (c.addOutermost engine frames [rule])
  else
    sets.sets.foldlM
      (fun c set => c.addBelow engine frames (rule :: set.path) set.symbols set.following) c

end Candidates

end GrammarCompletion
