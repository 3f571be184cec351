import GrammarCompletion.Token.Stream

/-!
# The window up to the caret

Completion looks at the visible tokens from a start token up to the token at the caret.
-/

namespace GrammarCompletion

inductive WindowError where
  | startOutside (start : Int) (size : Nat)
  | caretBeforeStart (caret start : Int)
  deriving DecidableEq

namespace WindowError

def message : WindowError → Bytes
  | .startOutside start size =>
    "invalid argument: context start " ++ Bytes.ofInt start ++ " outside stream of " ++
      Bytes.ofNat size ++ " tokens"
  | .caretBeforeStart caret start =>
    "invalid argument: caret " ++ Bytes.ofInt caret ++ " before context start " ++
      Bytes.ofInt start

end WindowError

namespace TokenStream

theorem le_skipHidden (tokens : Array Token) (i : Nat) (h : i < tokens.size) :
    i ≤ skipHidden tokens i := by
  fun_induction skipHidden tokens i with
  | case1 => exact Nat.le_refl _
  | case2 i _ _ ih =>
    have := ih (by omega)
    omega
  | case3 => omega

/-- The visible tokens from position `i` on, up to one that reaches the caret or ends the input. -/
def windowFrom (tokens : Array Token) (caret : Int) (i : Nat) : List Token :=
  if h : i < tokens.size then
    let t := tokens[i]
    if caret ≤ t.index ∨ t.isEnd then [t]
    else if i + 1 < tokens.size then t :: windowFrom tokens caret (skipHidden tokens (i + 1))
    else [t]
  else []
termination_by tokens.size - i
decreasing_by
  have := le_skipHidden tokens (i + 1) (by assumption)
  omega

/-- The visible tokens from `start` up to and including the first whose index reaches `caret`, or
up to the end of input. -/
def window (s : TokenStream) (start caret : Int) : Except WindowError (List Token) :=
  if start < 0 ∨ s.size < start then .error (.startOutside start s.size)
  else if caret < start then .error (.caretBeforeStart caret start)
  else .ok (windowFrom s.tokens caret (s.seek start).position)

/-- The stream after a window from `start` on was read: it has moved there and back. -/
def afterWindow (s : TokenStream) (start : Int) : TokenStream := (s.seek start).seek s.position

end TokenStream

end GrammarCompletion
