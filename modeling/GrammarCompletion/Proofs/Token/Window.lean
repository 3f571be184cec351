import GrammarCompletion.Token.Window

/-!
# Windows as lists

Seen as a list, a window is what the visible tokens start with, up to the first one that reaches the
caret or ends the input. Reading it leaves the stream where it was.
-/

namespace GrammarCompletion

theorem WindowError.message_starts (cause : WindowError) :
    ∃ detail, cause.message = ("invalid argument: " : Bytes) ++ detail := by
  have start : ("invalid argument: context start " : Bytes) =
      "invalid argument: " ++ "context start " := by decide
  have caret : ("invalid argument: caret " : Bytes) = "invalid argument: " ++ "caret " := by decide
  cases cause with
  | startOutside first size =>
    simp only [message, start, List.append_assoc]
    exact ⟨_, rfl⟩
  | caretBeforeStart place first =>
    simp only [message, caret, List.append_assoc]
    exact ⟨_, rfl⟩

namespace TokenStream

theorem skipHidden_lt {tokens : Array Token} (h : 0 < tokens.size) (i : Nat) :
    skipHidden tokens i < tokens.size := by
  fun_induction skipHidden tokens i with
  | case1 => omega
  | case2 _ _ _ ih => exact ih
  | case3 => omega

theorem window_ne_nil {stream : TokenStream} {start caret : Int} {window : List Token}
    (h : stream.window start caret = .ok window) : window ≠ [] := by
  unfold TokenStream.window at h
  split at h
  · cases h
  · split at h
    · cases h
    · cases h
      have inside : (stream.seek start).position < stream.tokens.size :=
        skipHidden_lt stream.nonempty start.toNat
      rw [windowFrom, dif_pos inside]
      dsimp only
      split
      · simp
      · split <;> simp

/-- There is no window if and only if the start lies outside of the stream or the caret before the
start. -/
theorem window_error_iff {stream : TokenStream} {start caret : Int} :
    (∃ cause, stream.window start caret = .error cause) ↔
      start < 0 ∨ stream.size < start ∨ caret < start := by
  unfold TokenStream.window
  by_cases outside : start < 0 ∨ stream.size < start
  · rw [if_pos outside]
    simp only [Except.error.injEq, exists_eq', true_iff]
    omega
  · rw [if_neg outside]
    by_cases early : caret < start
    · simp [early]
    · simp only [if_neg early, reduceCtorEq, exists_false, false_iff]
      omega

variable {tokens : Array Token} {i : Nat}

theorem skipHidden_skipHidden (tokens : Array Token) (i : Nat) :
    skipHidden tokens (skipHidden tokens i) = skipHidden tokens i := by
  fun_induction skipHidden tokens i with
  | case1 i more shown => rw [skipHidden, dif_pos more, if_pos shown]
  | case2 i more hidden ih => exact ih
  | case3 i stop => rw [skipHidden, dif_neg (by omega)]

/-- The stream stands at a visible token or at the last one. -/
def Settled (s : TokenStream) : Prop := skipHidden s.tokens s.position = s.position

theorem settled_ofTokens (tokens : List Token) : (ofTokens tokens).Settled :=
  skipHidden_skipHidden _ _

theorem settled_seek (s : TokenStream) (i : Int) : (s.seek i).Settled := skipHidden_skipHidden _ _

/-- A stream never stands elsewhere, however it was moved. -/
theorem settled_moved (tokens : List Token) (moves : List Int) :
    (moves.foldl seek (ofTokens tokens)).Settled := by
  have settled := settled_ofTokens tokens
  generalize ofTokens tokens = s at settled
  induction moves generalizing s with
  | nil => exact settled
  | cons i moves ih => exact ih (s.seek i) (s.settled_seek i)

theorem Settled.afterWindow_eq {s : TokenStream} (settled : s.Settled) (start : Int) :
    s.afterWindow start = s := by
  unfold Settled at settled
  simp only [afterWindow, seek, Int.toNat_natCast, settled]

/-! ## The tokens on offer -/

/-- What a window may hold from position `i` on: the visible tokens, and the last token in any case. -/
def offered (s : TokenStream) (i : Nat) : List Token :=
  (s.tokens.toList.dropLast.drop i).filter Token.isVisible ++ [s.last]

variable {s : TokenStream}

/-- Skipping hidden tokens comes to the first token on offer. -/
theorem offered_skipHidden (s : TokenStream) (i : Nat) :
    ∃ t, s.tokens[skipHidden s.tokens i]? = some t ∧
      s.offered i = t :: if skipHidden s.tokens i + 1 < s.tokens.size
        then s.offered (skipHidden s.tokens i + 1) else [] := by
  have length : s.tokens.toList.dropLast.length = s.tokens.size - 1 := by simp
  fun_induction skipHidden s.tokens i with
  | case1 i more shown =>
    refine ⟨s.tokens[i], Array.getElem?_eq_getElem _, ?_⟩
    rw [if_pos more, offered, List.drop_eq_getElem_cons (by omega), List.getElem_dropLast,
      Array.getElem_toList, List.filter_cons_of_pos shown]
    rfl
  | case2 i more hidden ih =>
    obtain ⟨t, found, rest⟩ := ih
    refine ⟨t, found, ?_⟩
    rw [offered, List.drop_eq_getElem_cons (by omega), List.getElem_dropLast, Array.getElem_toList,
      List.filter_cons_of_neg hidden]
    exact rest
  | case3 i stop =>
    have nonempty := s.nonempty
    refine ⟨s.last, Array.getElem?_eq_getElem _, ?_⟩
    rw [if_neg (by omega), offered, List.drop_eq_nil_of_le (by omega)]
    rfl

/-- The window over tokens on offer that start with `before` and `t`, if `t` is the first of them at
which it may stop. -/
theorem windowFrom_offered {caret : Int} {before after : List Token} {t : Token}
    (split : s.offered i = before ++ t :: after)
    (passed : ∀ u ∈ before, ¬(caret ≤ u.index ∨ u.isEnd = true))
    (stopped : caret ≤ t.index ∨ t.isEnd = true) :
    windowFrom s.tokens caret (skipHidden s.tokens i) = before ++ [t] := by
  induction before generalizing i with
  | nil =>
    obtain ⟨u, found, rest⟩ := s.offered_skipHidden i
    obtain ⟨bound, rfl⟩ := Array.getElem?_eq_some_iff.mp found
    rw [rest, List.nil_append, List.cons.injEq] at split
    rw [windowFrom, dif_pos bound]
    simp only [split.1, if_pos stopped, List.nil_append]
  | cons u before ih =>
    obtain ⟨u', found, rest⟩ := s.offered_skipHidden i
    obtain ⟨bound, rfl⟩ := Array.getElem?_eq_some_iff.mp found
    rw [rest, List.cons_append, List.cons.injEq] at split
    rw [List.forall_mem_cons] at passed
    -- there is a token behind, since `t` still has to come
    have more : skipHidden s.tokens i + 1 < s.tokens.size := by
      refine Decidable.byContradiction fun final => ?_
      simp [final] at split
    rw [if_pos more] at split
    rw [windowFrom, dif_pos bound]
    simp only [split.1, if_neg passed.1, if_pos more, List.cons_append]
    rw [ih split.2 passed.2]

theorem toList_eq_dropLast_append (s : TokenStream) :
    s.tokens.toList = s.tokens.toList.dropLast ++ [s.last] := by
  have nonempty : s.tokens.toList ≠ [] := List.ne_nil_of_length_pos (by simpa using s.nonempty)
  have last : s.tokens.toList.getLast nonempty = s.last := by
    rw [List.getLast_eq_getElem]
    rfl
  rw [← last, List.dropLast_concat_getLast]

theorem offered_of_visible (visible : s.last.isVisible = true) (inside : i < s.size) :
    s.offered i = (s.tokens.toList.drop i).filter Token.isVisible := by
  have length : s.tokens.toList.dropLast.length = s.size - 1 := by simp [size]
  conv => rhs; rw [s.toList_eq_dropLast_append, List.drop_append_of_le_length (by omega)]
  rw [List.filter_append, List.filter_cons_of_pos visible]
  rfl

theorem get_natCast (s : TokenStream) (i : Nat) : s.get i = s.tokens[i]?.getD s.last := by
  rw [get, if_neg (by omega), Int.toNat_natCast]

/-- Looking ahead goes through the tokens on offer, and stays at the last one. -/
theorem get_forward (s : TokenStream) (count i : Nat) :
    s.get (forward s.tokens count (skipHidden s.tokens i)) = (s.offered i)[count]?.getD s.last := by
  induction count generalizing i with
  | zero =>
    obtain ⟨t, found, rest⟩ := s.offered_skipHidden i
    rw [forward, get_natCast, found, rest]
    rfl
  | succ count ih =>
    obtain ⟨t, found, rest⟩ := s.offered_skipHidden i
    rw [forward, rest, List.getElem?_cons_succ]
    by_cases more : skipHidden s.tokens i + 1 < s.tokens.size
    · rw [if_pos more, if_pos more, ih]
    · have bound := skipHidden_lt s.nonempty i
      have final : skipHidden s.tokens i = s.tokens.size - 1 := by omega
      rw [if_neg more, if_neg more, get_natCast, final, Array.getElem?_eq_getElem (by omega)]
      rfl

theorem lookahead_seek (s : TokenStream) (i : Int) (k : Nat) :
    (s.seek i).lookahead (k + 1) = (s.offered i.toNat)[k]?.getD s.last := by
  rw [lookahead, if_neg (by omega), ← get_forward]
  simp only [seek, skipHidden_skipHidden]
  rfl

/-! ## Streams over given tokens -/

theorem tokens_moved (s : TokenStream) (moves : List Int) : (moves.foldl seek s).tokens = s.tokens := by
  induction moves generalizing s with
  | nil => rfl
  | cons i moves ih => exact ih (s.seek i)

/-- What all streams over given tokens have in common, wherever they stand. -/
structure Closed (s : TokenStream) : Prop where
  index_eq : ∀ (i : Nat) (t : Token), s.tokens[i]? = some t → t.index = i
  isEnd_last : s.last.isEnd = true

theorem getElem?_numbered (tokens : List Token) (i : Nat) :
    (numbered tokens)[i]? = tokens[i]?.map fun t => { t with index := i } := by
  simp [numbered, List.getElem?_mapIdx]

theorem isEnd_getLast?_closed (tokens : List Token) :
    ∀ t ∈ (closed tokens).getLast?, t.isEnd = true := by
  unfold closed
  split
  · next last found =>
    split
    · next isEnd => simp [found, isEnd]
    · simp [endAfter, found, Token.isEnd]
  · simp [endAfter, Token.isEnd]

theorem closed_moved (tokens : List Token) (moves : List Int) :
    (moves.foldl seek (ofTokens tokens)).Closed := by
  generalize same : moves.foldl seek (ofTokens tokens) = s
  have all : s.tokens = (numbered (closed tokens)).toArray := same ▸ tokens_moved _ moves
  have found (i : Nat) (t : Token) (at_ : s.tokens[i]? = some t) :
      ∃ u, (closed tokens)[i]? = some u ∧ { u with index := i } = t := by
    rw [all, List.getElem?_toArray, getElem?_numbered] at at_
    exact Option.map_eq_some_iff.mp at_
  constructor
  · intro i t at_
    obtain ⟨u, -, rfl⟩ := found i t at_
    rfl
  · have size : s.tokens.size = (closed tokens).length := by simp [all, numbered]
    obtain ⟨u, last, same⟩ := found _ s.last (Array.getElem?_eq_getElem _)
    rw [size, ← List.getLast?_eq_getElem?] at last
    rw [← same]
    exact isEnd_getLast?_closed tokens u last

/-- The visible tokens from an index on without the last token, and then the last token. -/
def visibleFrom (s : TokenStream) (start : Int) : List Token :=
  (s.tokens.toList.dropLast.filter fun t => t.isVisible && decide (start ≤ t.index)) ++ [s.last]

theorem Closed.visibleFrom_eq (h : s.Closed) {start : Int} (inside : 0 ≤ start) :
    s.visibleFrom start = s.offered start.toNat := by
  have index (i : Nat) (bound : i < s.tokens.toList.dropLast.length) :
      s.tokens.toList.dropLast[i].index = i := by
    have within : i < s.tokens.size := by
      rw [List.length_dropLast, Array.length_toList] at bound
      omega
    rw [List.getElem_dropLast]
    exact h.index_eq i _ (Array.getElem?_eq_getElem within)
  have early : (s.tokens.toList.dropLast.take start.toNat).filter
      (fun t => t.isVisible && decide (start ≤ t.index)) = [] := by
    rw [List.filter_eq_nil_iff]
    intro t member
    obtain ⟨i, bound, rfl⟩ := List.mem_take_iff_getElem.mp member
    have := index i (by omega)
    simp only [Bool.and_eq_true, decide_eq_true_eq]
    omega
  have late : (s.tokens.toList.dropLast.drop start.toNat).filter
      (fun t => t.isVisible && decide (start ≤ t.index)) =
      (s.tokens.toList.dropLast.drop start.toNat).filter Token.isVisible := by
    apply List.filter_congr
    intro t member
    obtain ⟨i, bound, rfl⟩ := List.mem_drop_iff_getElem.mp member
    rw [Nat.add_comm] at bound
    have := index (start.toNat + i) bound
    rw [decide_eq_true (by omega), Bool.and_true]
  unfold visibleFrom offered
  rw [← late, ← List.nil_append (List.filter _ (List.drop _ _)), ← early, ← List.filter_append,
    List.take_append_drop]

/-! ## Shortest windows -/

/-- A list is the shortest part that `tokens` start with and that ends in a token at which to stop. -/
structure IsShortest (Stop : Token → Prop) (tokens window : List Token) : Prop where
  isPrefix : window <+: tokens
  stops : ∃ t, window.getLast? = some t ∧ Stop t
  shortest : ∀ other, other <+: tokens → (∃ t, other.getLast? = some t ∧ Stop t) →
    window.length ≤ other.length

theorem IsShortest.of_split {Stop : Token → Prop} {before after : List Token} {t : Token}
    (passed : ∀ u ∈ before, ¬Stop u) (stopped : Stop t) :
    IsShortest Stop (before ++ t :: after) (before ++ [t]) where
  isPrefix := by simp
  stops := ⟨t, by simp, stopped⟩
  shortest other isPrefix stops := by
    obtain ⟨u, last, stop⟩ := stops
    rw [List.length_append, List.length_singleton]
    refine Decidable.byContradiction fun shorter => ?_
    -- a shorter part lies in front of `t`, where nothing stops
    have within : other <+: before :=
      List.prefix_of_prefix_length_le isPrefix (List.prefix_append _ _) (by omega)
    exact passed u (within.subset (List.mem_of_getLast? last)) stop

theorem Closed.windowFrom_isShortest (h : s.Closed) (caret : Int) (i : Nat) :
    IsShortest (fun t => caret ≤ t.index ∨ t.isEnd = true) (s.offered i)
      (windowFrom s.tokens caret (skipHidden s.tokens i)) := by
  cases first : (s.offered i).find? fun t => decide (caret ≤ t.index ∨ t.isEnd = true) with
  | none =>
    have := List.find?_eq_none.mp first s.last (by simp [offered])
    simp [h.isEnd_last] at this
  | some t =>
    obtain ⟨stopped, before, after, split, passed⟩ := List.find?_eq_some_iff_append.mp first
    have stopped : caret ≤ t.index ∨ t.isEnd = true := of_decide_eq_true stopped
    have passed : ∀ u ∈ before, ¬(caret ≤ u.index ∨ u.isEnd = true) := by
      intro u member
      simpa using passed u member
    rw [windowFrom_offered split passed stopped, split]
    exact .of_split passed stopped

/-- Whatever tokens a stream is given and however it was moved: there is no window if and only if the
start lies outside or the caret before the start. Any other window is the shortest part that the
visible tokens, and the last one behind them, start with up to the caret or an end of input; looking
ahead further and further gives its tokens one by one. The stream is afterwards what it was. -/
theorem window_shortest (tokens : List Token) (moves : List Int) (start caret : Int) :
    let s := moves.foldl seek (ofTokens tokens)
    ((∃ cause, s.window start caret = .error cause) ↔
        start < 0 ∨ s.size < start ∨ caret < start) ∧
      (∀ cause, s.window start caret = .error cause →
        ∃ detail, cause.message = ("invalid argument: " : Bytes) ++ detail) ∧
      (¬(start < 0 ∨ s.size < start ∨ caret < start) → ∃ window,
        s.window start caret = .ok window ∧
        IsShortest (fun t => caret ≤ t.index ∨ t.isEnd = true) (s.visibleFrom start) window ∧
        ∀ (k : Nat) (t : Token), window[k]? = some t → (s.seek start).lookahead (k + 1) = t) ∧
      s.afterWindow start = s := by
  intro s
  have closed : s.Closed := closed_moved tokens moves
  have settled : s.Settled := settled_moved tokens moves
  refine ⟨window_error_iff, fun cause _ => WindowError.message_starts cause, fun inside => ?_,
    settled.afterWindow_eq start⟩
  have shortest : IsShortest _ (s.offered start.toNat)
      (windowFrom s.tokens caret (s.seek start).position) :=
    closed.windowFrom_isShortest caret start.toNat
  refine ⟨windowFrom s.tokens caret (s.seek start).position, ?_, ?_, ?_⟩
  · rw [window, if_neg (by omega), if_neg (by omega)]
  · rw [closed.visibleFrom_eq (by omega)]
    exact shortest
  · intro k t found
    obtain ⟨behind, same⟩ := shortest.isPrefix
    have bound : k < _ := (List.getElem?_eq_some_iff.mp found).choose
    rw [lookahead_seek, ← same, List.getElem?_append_left bound, found, Option.getD_some]

/-- Tokens with an end of input in the middle and a hidden one at the end. -/
def twoEnds : List Token :=
  [{ symbol := 1, channel := 1 }, { symbol := 2 }, { symbol := Symbol.endOfInput }, { symbol := 3 },
    { symbol := Symbol.endOfInput, channel := 1 }]

theorem window_shortest_twoEnds :
    let s := [3, -1].foldl seek (ofTokens twoEnds)
    let window : List Token :=
      [{ index := 3, symbol := 3 }, { index := 4, symbol := Symbol.endOfInput, channel := 1 }]
    ¬((3 : Int) < 0 ∨ s.size < (3 : Int) ∨ (9 : Int) < 3) ∧ s.window 3 9 = .ok window ∧
      IsShortest (fun t => 9 ≤ t.index ∨ t.isEnd = true) (s.visibleFrom 3) window ∧
      s.lookahead 2 = { index := 2, symbol := Symbol.endOfInput } ∧ s.afterWindow 3 = s := by
  intro s window
  obtain ⟨-, -, answered, same⟩ := window_shortest twoEnds [3, -1] 3 9
  have inside : ¬((3 : Int) < 0 ∨ s.size < (3 : Int) ∨ (9 : Int) < 3) := by decide +kernel
  obtain ⟨found, result, shortest, -⟩ := answered inside
  have listed : windowFrom s.tokens 9 (s.seek 3).position = window := by decide +kernel
  have computed : s.window 3 9 = .ok window := by
    rw [TokenStream.window, if_neg (by omega), if_neg (by omega), listed]
  cases computed.symm.trans result
  exact ⟨inside, computed, shortest, by decide +kernel, same⟩

end TokenStream

end GrammarCompletion
