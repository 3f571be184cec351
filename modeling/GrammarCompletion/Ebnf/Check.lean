import GrammarCompletion.Ebnf.Error
import GrammarCompletion.Ebnf.Expr
import GrammarCompletion.Ebnf.Kind
import GrammarCompletion.Unseen

/-!
# Checking productions

A source is sound from a root production if every name reached stands for a production, lexical
productions refer to lexical ones only, character ranges go upwards from one character to another,
and every production is reached.
-/

namespace GrammarCompletion.Ebnf

namespace Expr

mutual

def names : Expr → List Located
  | .literal _ | .range _ _ => []
  | .name n => [n]
  | .sequence items | .alternative items => namesOfAll items
  | .group body | .option body | .repetition body => body.names

def namesOfAll : List Expr → List Located
  | [] => []
  | x :: rest => x.names ++ namesOfAll rest

end

mutual

def ranges : Expr → List (Located × Located)
  | .literal _ | .name _ => []
  | .range first last => [(first, last)]
  | .sequence items | .alternative items => rangesOfAll items
  | .group body | .option body | .repetition body => body.ranges

def rangesOfAll : List Expr → List (Located × Located)
  | [] => []
  | x :: rest => x.ranges ++ rangesOfAll rest

end

end Expr

namespace Production

def names (p : Production) : List Located := (p.body.map Expr.names).getD []

def ranges (p : Production) : List (Located × Located) := (p.body.map Expr.ranges).getD []

end Production

def nameErrors (source : Source) (lexical : Bool) (name : Located) : List Error :=
  (if (source.find? name.text).isSome then [] else [⟨name.position, .noProduction name.text⟩]) ++
    if lexical && !isLexical name.text then [⟨name.position, .notLexical name.text⟩] else []

def endCode? (text : Bytes) : Option Nat :=
  match text.runes with
  | [r] => some r.code
  | _ => none

def endErrors (text : Located) : List Error :=
  match endCode? text.text with
  | some _ => []
  | none => [⟨text.position, .notSingle text.text⟩]

/-- The errors of a range; an end that is not a single character counts as the code point zero. -/
def rangeErrors (first last : Located) : List Error :=
  endErrors first ++ endErrors last ++
    if (endCode? first.text).getD 0 < (endCode? last.text).getD 0 then []
    else [⟨first.position, .decreasingRange⟩]

def productionErrors (source : Source) (p : Production) : List Error :=
  p.names.flatMap (nameErrors source (isLexical p.name.text)) ++
    p.ranges.flatMap fun (first, last) => rangeErrors first last

namespace Source

def reached (source : Source) (pending seen : List Bytes) : List Bytes :=
  match pending with
  | [] => seen
  | name :: rest =>
    if _isNew : seen.contains name = false then
      match _found : source.find? name with
      | none => source.reached rest seen
      | some p => source.reached (p.names.map Located.text ++ rest) (name :: seen)
    else source.reached rest seen
termination_by unseen source (fun p => p.names.length + 1)
    (fun p => seen.contains p.name.text) + pending.length
decreasing_by
  · simp only [List.length_cons]
    omega
  · have member := List.mem_of_find?_eq_some _found
    have named : p.name.text = name := by simpa using List.find?_some _found
    have less : unseen source (fun p => p.names.length + 1)
          (fun p => (name :: seen).contains p.name.text) + (p.names.length + 1) ≤
        unseen source (fun p => p.names.length + 1) (fun p => seen.contains p.name.text) :=
      unseen_add_weight_le member (by simpa [named] using _isNew) (by simp [named])
        (by intro q isSeen; simp at isSeen ⊢; exact Or.inr isSeen)
    simp only [List.length_append, List.length_map, List.length_cons] at less ⊢
    omega
  · simp only [List.length_cons]
    omega

/-- All errors of the productions reached from a root, and of those that are not, ordered by their
texts. -/
def check (source : Source) (root : Production) : List Error :=
  let seen := source.reached (root.names.map Located.text) []
  let errors := productionErrors source root ++
    source.flatMap fun p =>
      if seen.contains p.name.text then productionErrors source p
      else [⟨p.name.position, .unreachable p.name.text⟩]
  errors.mergeSort fun a b => decide (¬ b.message < a.message)

end Source

end GrammarCompletion.Ebnf
