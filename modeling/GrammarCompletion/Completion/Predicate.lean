import GrammarCompletion.Text.Bytes

/-!
# Predicates

A predicate guards a transition. Whether it holds is up to the caller's evaluator, which may fail
and whose answers may depend on the questions it was asked before.

An error is told from others by the sentinels that it wraps. The evaluator is free in its choice of
them: the reason for which it fails may wrap sentinels of its own as well as those of this library.
-/

namespace GrammarCompletion

structure PredicateCall where
  rule : Int
  index : Int
  deriving DecidableEq, Inhabited

inductive Sentinel where
  | invalidArgument
  | evaluationFailure
  /-- A sentinel of the caller. -/
  | other (name : Bytes)
  deriving DecidableEq

structure Reason where
  text : Bytes
  sentinels : List Sentinel := []
  deriving DecidableEq

/-- Answers a question, given the questions asked before in the same request, newest first. -/
abbrev Evaluator := (asked : List PredicateCall) → PredicateCall → Except Reason Bool

def Evaluator.pure (answer : PredicateCall → Except Reason Bool) : Evaluator := fun _ => answer

structure PredicateFailure where
  call : PredicateCall
  reason : Reason
  deriving DecidableEq

namespace PredicateFailure

def message (f : PredicateFailure) : Bytes :=
  "predicate evaluation failed: rule " ++ Bytes.ofInt f.call.rule ++ " predicate " ++
    Bytes.ofInt f.call.index ++ ": " ++ f.reason.text

def sentinels (f : PredicateFailure) : List Sentinel := .evaluationFailure :: f.reason.sentinels

end PredicateFailure

/-- Ask the evaluator and note the question. Without an evaluator every predicate holds and nothing
is asked. -/
def askPredicate (evaluator : Option Evaluator) (asked : List PredicateCall) (call : PredicateCall) :
    Except PredicateFailure Bool × List PredicateCall :=
  match evaluator with
  | none => (.ok true, asked)
  | some answer => ((answer asked call).mapError fun reason => ⟨call, reason⟩, call :: asked)

end GrammarCompletion
