import GrammarCompletion.Language.Complete
import GrammarCompletion.Proofs.Lexer.Tokens
import GrammarCompletion.Proofs.Token.Window

/-!
# The token at the caret

The visible tokens of a text fall into those that end before an offset, the token at the caret, and
those behind it. The window of a completion holds the first of these and the token at the caret.
-/

namespace GrammarCompletion

/-- The visible tokens split at the first one that ends at or behind an offset. -/
structure CaretSplit (tokens : List Token) (offset : Int) (before : List Token) (caret : Token)
    (after : List Token) : Prop where
  visible : tokens.filter Token.isVisible = before ++ caret :: after
  reached : offset ≤ caret.stop
  passed : ∀ t ∈ before, t.stop < offset
  ahead : ∀ t ∈ after, offset ≤ t.stop

/-- The token is visible and ends at or behind an offset, which no visible token before it does. -/
structure IsCaret (tokens : List Token) (offset : Int) (t : Token) : Prop where
  visible : t.isVisible = true
  reached : offset ≤ t.stop
  first : ∃ front after, tokens = front ++ t :: after ∧
    ∀ u ∈ front, u.isVisible = true → u.stop < offset

theorem isCaret_iff {tokens : List Token} {offset : Int} {t : Token} :
    IsCaret tokens offset t ↔
      tokens.find? (fun t => t.isVisible && decide (offset ≤ t.stop)) = some t := by
  rw [List.find?_eq_some_iff_append, Bool.and_eq_true, decide_eq_true_eq]
  constructor
  · intro h
    obtain ⟨front, after, split, passed⟩ := h.first
    refine ⟨⟨h.visible, h.reached⟩, front, after, split, fun u member => ?_⟩
    have passed := passed u member
    grind
  · intro h
    obtain ⟨⟨visible, reached⟩, front, after, split, passed⟩ := h
    refine ⟨visible, reached, front, after, split, fun u member shown => ?_⟩
    simpa [shown] using passed u member

def typesBefore (tokens : List Token) (offset : Int) : List Symbol :=
  (tokens.filter fun t => t.isVisible && decide (t.stop < offset)).map Token.symbol

theorem CaretSplit.typesBefore_eq {tokens before after : List Token} {caret : Token} {offset : Int}
    (h : CaretSplit tokens offset before caret after) :
    typesBefore tokens offset = before.map Token.symbol := by
  have none_behind : (caret :: after).filter (fun t => decide (t.stop < offset)) = [] := by
    rw [List.filter_eq_nil_iff, List.forall_mem_cons]
    refine ⟨by simpa using h.reached, fun t member => ?_⟩
    simpa using h.ahead t member
  have all_before : before.filter (fun t => decide (t.stop < offset)) = before := by
    rw [List.filter_eq_self]
    intro t member
    simpa using h.passed t member
  have visible_first : tokens.filter (fun t => t.isVisible && decide (t.stop < offset)) =
      (tokens.filter Token.isVisible).filter fun t => decide (t.stop < offset) := by
    rw [List.filter_filter]
    congr 1
    funext t
    exact Bool.and_comm _ _
  rw [typesBefore, visible_first, h.visible, List.filter_append, none_behind, all_before,
    List.append_nil]

namespace Tokenized

variable {text : Bytes} {tokens : List Token}

/-- A stream over all tokens of a text leaves them as they are. -/
theorem toList_ofTokens (h : Tokenized text tokens) :
    (TokenStream.ofTokens tokens).tokens.toList = tokens := by
  have closed : TokenStream.closed tokens = tokens := by
    obtain ⟨front, last, rfl, isEnd, -⟩ := h.ending
    simp [TokenStream.closed, isEnd]
  have numbered : TokenStream.numbered tokens = tokens := by
    apply List.ext_getElem?
    intro i
    rw [TokenStream.numbered, List.getElem?_mapIdx]
    cases found : tokens[i]? with
    | none => rfl
    | some t => rw [Option.map_some, ← h.index_eq i t found]
  simp only [TokenStream.ofTokens, closed, numbered]

/-- Every offset of a text has a token at the caret, and that token is chosen. -/
theorem isCaret_caretToken (h : Tokenized text tokens) {offset : Int}
    (inside : offset ≤ text.length) :
    IsCaret tokens offset (Language.caretToken (TokenStream.ofTokens tokens) offset) := by
  obtain ⟨front, last, tokens_eq, -, visible, stop, -⟩ := h.ending
  have isSome : (tokens.find? fun t => t.isVisible && decide (offset ≤ t.stop)).isSome := by
    rw [List.find?_isSome]
    refine ⟨last, by simp [tokens_eq], ?_⟩
    simp only [visible, stop, Bool.true_and, decide_eq_true_eq]
    exact inside
  obtain ⟨caret, found⟩ := Option.isSome_iff_exists.mp isSome
  rw [isCaret_iff, Language.caretToken, h.toList_ofTokens, found]

variable {front after : List Token} {caret : Token}

theorem index_lt (h : Tokenized text tokens) (split : tokens = front ++ caret :: after) :
    caret.index = front.length ∧ ∀ t ∈ front, t.index < front.length := by
  refine ⟨h.index_eq front.length caret (by simp [split]), fun t member => ?_⟩
  obtain ⟨i, bound, rfl⟩ := List.getElem_of_mem member
  have index := h.index_eq i front[i] (by simp [split, List.getElem?_append_left bound])
  omega

theorem isEnd_front (h : Tokenized text tokens) (split : tokens = front ++ caret :: after) :
    ∀ t ∈ front, t.isEnd = false := by
  obtain ⟨init, last, ending, -, -, -, noEnd⟩ := h.ending
  intro t member
  apply noEnd
  have init_eq : tokens.dropLast = init := by rw [ending, List.dropLast_concat]
  rw [← init_eq, split, List.dropLast_append_of_ne_nil (by simp)]
  exact List.mem_append_left _ member

theorem visible_last (h : Tokenized text tokens) :
    (TokenStream.ofTokens tokens).last.isVisible = true := by
  obtain ⟨init, last, ending, -, visible, -⟩ := h.ending
  have same := (TokenStream.ofTokens tokens).toList_eq_dropLast_append
  rw [h.toList_ofTokens] at same
  obtain ⟨-, rfl⟩ := List.append_singleton_inj.mp (ending.symm.trans same)
  exact visible

theorem window_eq (h : Tokenized text tokens) (split : tokens = front ++ caret :: after)
    (visible : caret.isVisible = true) :
    (TokenStream.ofTokens tokens).window 0 caret.index =
      .ok (front.filter Token.isVisible ++ [caret]) := by
  obtain ⟨index, indices⟩ := h.index_lt split
  have listed : (TokenStream.ofTokens tokens).offered (0 : Int).toNat =
      front.filter Token.isVisible ++ caret :: after.filter Token.isVisible := by
    rw [Int.toNat_zero, TokenStream.offered_of_visible h.visible_last (TokenStream.nonempty _),
      h.toList_ofTokens, List.drop_zero, split, List.filter_append, List.filter_cons_of_pos visible]
  have passed : ∀ t ∈ front.filter Token.isVisible, ¬(caret.index ≤ t.index ∨ t.isEnd = true) := by
    intro t member
    rw [List.mem_filter] at member
    have before := indices t member.1
    simp only [h.isEnd_front split t member.1, Bool.false_eq_true, or_false]
    omega
  unfold TokenStream.window
  rw [if_neg (by simp), if_neg (by omega)]
  exact congrArg Except.ok (TokenStream.windowFrom_offered listed passed (.inl (Int.le_refl _)))

/-- Every offset of a text splits its visible tokens at the caret. The window up to the caret holds
the tokens before the caret and the one there. -/
theorem exists_caretSplit (h : Tokenized text tokens) {offset : Int} {caret : Token}
    (isCaret : IsCaret tokens offset caret) :
    ∃ before after, CaretSplit tokens offset before caret after ∧
      (TokenStream.ofTokens tokens).window 0 caret.index = .ok (before ++ [caret]) := by
  obtain ⟨front, after, split, passed⟩ := isCaret.first
  refine ⟨front.filter Token.isVisible, after.filter Token.isVisible, ?_,
    h.window_eq split isCaret.visible⟩
  constructor
  · rw [split, List.filter_append, List.filter_cons_of_pos isCaret.visible]
  · exact isCaret.reached
  · intro t member
    rw [List.mem_filter] at member
    exact passed t member.1 member.2
  · intro t member
    have ordered := h.stops
    rw [split, List.pairwise_append, List.pairwise_cons] at ordered
    exact Int.le_trans isCaret.reached (ordered.2.1.1 t (List.mem_filter.mp member).1)

end Tokenized

end GrammarCompletion
