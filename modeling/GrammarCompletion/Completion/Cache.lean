import GrammarCompletion.Completion.FollowSets

/-!
# The follow-set cache

Follow sets depend on the automaton alone as long as predicates do not interfere, so they are kept
between requests. A cache may serve several grammars; entries are told apart by an identity and the
start state of the rule. What is stored is never changed.
-/

namespace GrammarCompletion

/-- Under which name follow sets are stored: that of a grammar, or the serial number of an
automaton without a name. -/
inductive CacheIdentity where
  | grammar (id : Bytes)
  | automaton (serial : Nat)
  deriving DecidableEq

structure CacheKey where
  state : Nat
  identity : CacheIdentity
  deriving DecidableEq

/-- Stored follow sets, newest first, with the number of surveys that succeeded and the number of
states visited by all surveys. -/
structure Cache where
  entries : List (CacheKey × FollowSets) := []
  computations : Nat := 0
  statesVisited : Nat := 0
  deriving Inhabited

namespace Cache

def find? (c : Cache) (key : CacheKey) : Option FollowSets := c.entries.lookup key

def countStates (c : Cache) (visited : Nat) : Cache :=
  { c with statesVisited := c.statesVisited + visited }

def store (c : Cache) (key : CacheKey) (sets : FollowSets) : Cache :=
  { c with entries := (key, sets) :: c.entries, computations := c.computations + 1 }

def size (c : Cache) : Nat := c.entries.length

end Cache

end GrammarCompletion
