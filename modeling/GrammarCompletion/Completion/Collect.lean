import GrammarCompletion.Completion.Walk
import GrammarCompletion.Token.Window

/-!
# Collecting candidates

A request names the stream, the index of the token at the caret, and a rule with the token it
starts at. The window between the two is walked from that rule.
-/

namespace GrammarCompletion

/-- Why a request has no candidates. All but the last are errors that it returns; a request that
comes upon a set it cannot list breaks off. -/
inductive CompletionError where
  | ruleOutside (rule : Int) (rules : Nat)
  | window (cause : WindowError)
  | predicate (cause : PredicateFailure)
  | overlong
  deriving DecidableEq

namespace CompletionError

def ofInterruption : Interruption → CompletionError
  | .predicate failure => .predicate failure
  | .overlong => .overlong

def sentinels : CompletionError → List Sentinel
  | .ruleOutside _ _ | .window _ => [.invalidArgument]
  | .predicate cause => cause.sentinels
  | .overlong => []

def message : CompletionError → Bytes
  | .ruleOutside rule rules =>
    "invalid argument: rule index " ++ Bytes.ofInt rule ++ " outside automaton of " ++
      Bytes.ofNat rules ++ " rules"
  | .window cause => cause.message
  | .predicate cause => cause.message
  | .overlong => "runtime error: makeslice: cap out of range"

end CompletionError

structure RuleContext where
  rule : Int := 0
  start : Int := 0

/-- The answer to a request, the cache after it, the questions put to the evaluator in order, and
the stream as the request leaves it. -/
structure Collected where
  result : Except CompletionError Candidates
  cache : Cache
  asked : List PredicateCall
  stream : TokenStream

namespace Engine

def collect (engine : Engine) (cache : Cache) (stream : TokenStream) (caret : Int)
    (context : RuleContext) (evaluator : Option Evaluator) : Collected :=
  match engine.automaton.rule? context.rule with
  | none =>
    ⟨.error (.ruleOutside context.rule engine.automaton.rules.size), cache, [], stream⟩
  | some _ =>
    match stream.window context.start caret with
    | .error cause => ⟨.error (.window cause), cache, [], stream⟩
    | .ok window =>
      let request : Request := ⟨engine, window.toArray, evaluator⟩
      let stream := stream.afterWindow context.start
      match (request.enterRule [] context.rule.toNat 0).run { cache := cache } with
      | .ok _ s =>
        ⟨.ok { s.candidates with statesProcessed := s.statesProcessed }, s.cache, s.asked.reverse,
          stream⟩
      | .error reason s => ⟨.error (.ofInterruption reason), s.cache, s.asked.reverse, stream⟩

end Engine

end GrammarCompletion
