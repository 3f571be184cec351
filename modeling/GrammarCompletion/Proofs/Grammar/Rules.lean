import GrammarCompletion.Proofs.Grammar.Compile

/-!
# The automaton of a grammar

All rules are declared first, so that rule `i` starts at state `2 * i` and stops at the next one.
Then the rules are filled in, one after the other. Filling in a rule leaves the rules before it as
they are, since it only connects states of its own.
-/

namespace GrammarCompletion

open Ebnf

namespace Compile

variable {b : Bindings} {a a' : Automaton} {productions : List Production} {k : Nat}

def declared (index : Nat) (name : Bytes) : Rule := ⟨index, name, 2 * index, 2 * index + 1⟩

/-- All rules are declared and the first `k` are filled in. -/
structure Filled (b : Bindings) (productions : List Production) (k : Nat) (a : Automaton) :
    Prop where
  assembled : a.Assembled
  greatest : ∀ top, Below b top → 0 ≤ top → a.maxSymbol ≤ top
  rules : ∀ i : Nat, a.rules[i]? = productions[i]?.map fun p => declared i p.name.text
  shape_start : ∀ i, i < productions.length → a.shape? (2 * i) = some (.ruleStart, i)
  shape_stop : ∀ i, i < productions.length → a.shape? (2 * i + 1) = some (.ruleStop, i)
  shape_inner : ∀ n kind rule, 2 * productions.length ≤ n → a.shape? n = some (kind, rule) →
    (kind ≠ .ruleStart ∧ kind ≠ .ruleStop) ∧ rule < productions.length
  stays : ∀ n kind rule, a.shape? n = some (kind, rule) → ∀ t ∈ a.transitionsAt n,
    ∃ kind', a.shape? t.next = some (kind', rule)
  emitted : ∀ n, ∀ t ∈ a.transitionsAt n, b.Emits t
  closed : ∀ i, i < productions.length → a.transitionsAt (2 * i + 1) = []
  opened : ∀ i, i < k → i < productions.length →
    ∃ entry, a.transitionsAt (2 * i) = [.epsilon entry]
  pending : ∀ i, k ≤ i → i < productions.length → a.transitionsAt (2 * i) = []
  spells : ∀ i p, i < k → productions[i]? = some p → ∀ calls w,
    LocalPath a.transitionsAt calls (2 * i) w (2 * i + 1) ↔
      SpellsBody b.table (b.words calls) p.body w

/-! ## Declaring rules -/

/-- Rules with the given names are declared and nothing else is there. -/
structure Declared (names : List Bytes) (a : Automaton) : Prop where
  assembled : a.Assembled
  maxSymbol : a.maxSymbol = 0
  size : a.states.size = 2 * names.length
  rules : a.rules = (names.mapIdx declared).toArray
  shape_start : ∀ i, i < names.length → a.shape? (2 * i) = some (.ruleStart, i)
  shape_stop : ∀ i, i < names.length → a.shape? (2 * i + 1) = some (.ruleStop, i)
  unconnected : ∀ n, a.transitionsAt n = []

theorem Declared.addRule {names : List Bytes} (h : Declared names a) (name : Bytes) :
    Declared (names ++ [name]) (a.addRule name) := by
  have count : a.rules.size = names.length := by simp [h.rules]
  have size := h.size
  have shape : ∀ n, (a.addRule name).shape? n =
      if n = 2 * names.length + 1 then some (.ruleStop, names.length)
      else if n = 2 * names.length then some (.ruleStart, names.length) else a.shape? n := by
    intro n
    simp only [Automaton.addRule, Automaton.shape?_addState, Automaton.size_addState, count, size]
    rfl
  constructor
  case assembled => exact h.assembled.addRule name
  case maxSymbol => exact h.maxSymbol
  case size => simp [Automaton.addRule, size]; omega
  case rules =>
    simp [Automaton.addRule, declared, Automaton.nextState, h.rules, size, List.mapIdx_append]
  case shape_start =>
    intro i hi
    rw [List.length_append, List.length_singleton] at hi
    rw [shape, if_neg (by omega)]
    split
    · rw [show i = names.length by omega]
    · exact h.shape_start i (by omega)
  case shape_stop =>
    intro i hi
    rw [List.length_append, List.length_singleton] at hi
    rw [shape]
    split
    · rw [show i = names.length by omega]
    · rw [if_neg (by omega)]
      exact h.shape_stop i (by omega)
  case unconnected =>
    intro n
    simp only [Automaton.addRule, Automaton.transitionsAt_addState]
    exact h.unconnected n

theorem Declared.addRules (more : List Bytes) :
    ∀ {names : List Bytes} {a : Automaton}, Declared names a →
      Declared (names ++ more) (more.foldl Automaton.addRule a) := by
  induction more with
  | nil => intro names a h; simpa using h
  | cons name more ih =>
    intro names a h
    simpa using ih (h.addRule name)

theorem declared_empty : Declared [] Automaton.empty := by
  constructor
  case assembled => exact .empty
  case maxSymbol => rfl
  all_goals simp [Automaton.empty, Automaton.transitionsAt]

theorem Declared.filled (h : Declared (productions.map fun p => p.name.text) a) :
    Filled b productions 0 a := by
  have size := h.size
  simp only [List.length_map] at size
  constructor
  case assembled => exact h.assembled
  case greatest => exact fun top _ positive => h.maxSymbol ▸ positive
  case rules => intro i; simp [h.rules, Function.comp_def]
  case shape_start => intro i hi; exact h.shape_start i (by simpa using hi)
  case shape_stop => intro i hi; exact h.shape_stop i (by simpa using hi)
  case shape_inner =>
    intro n kind rule hn hs
    have := Automaton.lt_size_of_shape? hs
    omega
  case opened => intro i hi; omega
  case spells => intro i p hi; omega
  all_goals simp [h.unconnected]

/-! ## Filling in a rule -/

def bodyLiterals (p : Production) : List Bytes := (p.body.map Expr.literals).getD []

theorem body_fragment {rule : Nat} {p : Production} {part : Part}
    (hl : b.table.Types (bodyLiterals p)) (h : body b rule p.body a = .ok (part, a')) :
    Fragment b a a' rule part (fun calls w => SpellsBody b.table (b.words calls) p.body w) := by
  unfold bodyLiterals at hl
  cases he : p.body with
  | none =>
    rw [he] at h
    refine (passage_fragment h).congr fun calls w => ⟨?_, ?_⟩
    · rintro rfl
      exact .empty
    · rintro ⟨⟩
      rfl
  | some e =>
    rw [he] at h hl
    refine (expr_fragment e hl h).congr fun calls w => ⟨.expr, ?_⟩
    rintro ⟨⟩
    assumption

namespace Filled

theorem size_le (h : Filled b productions k a) : 2 * productions.length ≤ a.states.size := by
  by_cases hp : productions.length = 0
  · omega
  · have := Automaton.lt_size_of_shape? (h.shape_stop (productions.length - 1) (by omega))
    omega

variable {a₁ : Automaton} {part : Part}
  {language : (Nat → List Symbol → Prop) → List Symbol → Prop}

def linked (a : Automaton) (k : Nat) (part : Part) : Automaton :=
  (a.connect (2 * k) (.epsilon part.entry)).connect part.exit (.epsilon (2 * k + 1))

theorem transitionsAt_linked (h : Filled b productions k a) (hk : k < productions.length)
    (new : Fragment b a a₁ k part language) (n : Nat) :
    (linked a₁ k part).transitionsAt n =
      if n = 2 * k then [.epsilon part.entry]
      else if n = part.exit then [.epsilon (2 * k + 1)]
      else if n < a.states.size then a.transitionsAt n
      else a₁.transitionsAt n := by
  have le := h.size_le
  have le' := new.size_le
  have hexit := new.exit_new
  have hsink := new.sink
  have hpending := h.pending k (Nat.le_refl k) hk
  have hstart := new.old (2 * k) (by omega)
  have hold := new.old n
  unfold linked
  rw [Automaton.transitionsAt_connect, Automaton.transitionsAt_connect]
  · grind
  all_goals
    try simp only [Automaton.size_connect]
    omega

theorem shape?_linked (n : Nat) : (linked a k part).shape? n = a.shape? n := by
  simp [linked]

theorem linked_stays (h : Filled b productions k a) (hk : k < productions.length)
    (new : Fragment b a a₁ k part language) {n rule : Nat} {kind : StateKind}
    (hn : (linked a₁ k part).shape? n = some (kind, rule)) :
    ∀ t ∈ (linked a₁ k part).transitionsAt n,
      ∃ kind', (linked a₁ k part).shape? t.next = some (kind', rule) := by
  intro t ht
  have le := h.size_le
  have hexit := new.exit_new
  simp only [shape?_linked] at hn ⊢
  rw [h.transitionsAt_linked hk new] at ht
  split at ht
  case isTrue hs =>
    subst hs
    cases List.mem_singleton.mp ht
    rw [new.shape_old _ (by omega), h.shape_start k hk] at hn
    cases hn
    exact (new.shape_new part.entry new.entry_new.1 new.entry_new.2).imp fun _ h => h.1
  split at ht
  case isTrue hs =>
    subst hs
    cases List.mem_singleton.mp ht
    obtain ⟨_, hnew, -⟩ := new.shape_new part.exit hexit.1 hexit.2
    cases hn.symm.trans hnew
    exact ⟨.ruleStop, by rw [Transition.next, new.shape_old _ (by omega), h.shape_stop k hk]⟩
  split at ht
  case isTrue hlt =>
    rw [new.shape_old n hlt] at hn
    obtain ⟨kind', hnext⟩ := h.stays n kind rule hn t ht
    exact ⟨kind', by rw [new.shape_old _ (Automaton.lt_size_of_shape? hnext), hnext]⟩
  case isFalse hge =>
    have hin := new.inside n (Nat.not_lt.mp hge) t ht
    obtain ⟨_, hnew, -⟩ := new.shape_new n (Nat.not_lt.mp hge) (Automaton.lt_size_of_shape? hn)
    cases hn.symm.trans hnew
    exact (new.shape_new t.next hin.1 hin.2).imp fun _ h => h.1

theorem linked_spells (h : Filled b productions k a) (hk : k < productions.length)
    (new : Fragment b a a₁ k part language) (calls : Nat → List Symbol → Prop) (w : List Symbol) :
    LocalPath (linked a₁ k part).transitionsAt calls (2 * k) w (2 * k + 1) ↔ language calls w := by
  have le := h.size_le
  have hexit := new.exit_new
  have out := h.transitionsAt_linked hk new
  have sink : (linked a₁ k part).transitionsAt (2 * k + 1) = [] := by
    rw [out, if_neg (by omega), if_neg (by omega), if_pos (by omega), h.closed k hk]
  have start : (linked a₁ k part).transitionsAt (2 * k) = [.epsilon part.entry] := by
    rw [out, if_pos rfl]
  have pass : LocalPath (linked a₁ k part).transitionsAt calls part.entry w (2 * k + 1) ↔
      language calls w := by
    rw [new.through (m := 2 * k + 1) ?_ ?_ ?_ (fun hin => by have := hin.1; omega)]
    · constructor
      · rintro ⟨u, v, rfl, hu, hv⟩
        simpa [(hv.eq_of_sink sink).2] using hu
      · exact fun hw => ⟨w, [], by simp, hw, .refl _⟩
    · intro n t ht
      have hold := new.old n
      have hpending := h.pending k (Nat.le_refl k) hk
      rw [out]
      grind [new.sink]
    · intro n hn hne
      have := hn.1
      rw [out, if_neg (by omega), if_neg hne, if_neg (by omega)]
    · rw [out, if_neg (by omega), if_pos rfl]
  rw [← pass]
  exact ⟨fun path => path.of_epsilon start (by omega), .epsilon_cons (by simp [start])⟩

theorem linked_spells_before (h : Filled b productions k a) (hk : k < productions.length)
    (new : Fragment b a a₁ k part language) {i : Nat} (hi : i < k)
    (calls : Nat → List Symbol → Prop) (w : List Symbol) :
    LocalPath (linked a₁ k part).transitionsAt calls (2 * i) w (2 * i + 1) ↔
      LocalPath a.transitionsAt calls (2 * i) w (2 * i + 1) := by
  have hexit := new.exit_new
  have out := h.transitionsAt_linked hk new
  constructor
  · refine fun path => LocalPath.restrict (fun n => ∃ kind, a.shape? n = some (kind, i))
      ?_ ?_ path ⟨.ruleStart, h.shape_start i (by omega)⟩
    · rintro n ⟨kind, hn⟩ t ht
      exact h.stays n kind i hn t ht
    · rintro n ⟨kind, hn⟩
      have hlt := Automaton.lt_size_of_shape? hn
      have hne : n ≠ 2 * k := by
        rintro rfl
        cases (h.shape_start k hk).symm.trans hn
        omega
      rw [out, if_neg hne, if_neg (by omega), if_pos hlt]
  · refine fun path => path.mono ?_
    intro n t ht
    have hlt := Automaton.lt_size_of_mem ht
    have hpending := h.pending k (Nat.le_refl k) hk
    rw [out]
    grind

theorem link (h : Filled b productions k a) {p : Production} (hp : productions[k]? = some p)
    (new : Fragment b a a₁ k part
      (fun calls w => SpellsBody b.table (b.words calls) p.body w)) :
    Filled b productions (k + 1) (linked a₁ k part) := by
  have hk : k < productions.length := (List.getElem?_eq_some_iff.mp hp).choose
  have le := h.size_le
  have hexit := new.exit_new
  have out := h.transitionsAt_linked hk new
  constructor
  case assembled => exact ((new.assembled h.assembled).connect _ _).connect _ _
  case greatest => exact fun top below positive => new.greatest top below (h.greatest top below positive)
  case rules =>
    intro i
    simp only [linked, Automaton.rules_connect, new.rules, h.rules]
  case shape_start =>
    intro i hi
    rw [shape?_linked, new.shape_old _ (by omega), h.shape_start i hi]
  case shape_stop =>
    intro i hi
    rw [shape?_linked, new.shape_old _ (by omega), h.shape_stop i hi]
  case shape_inner =>
    intro n kind rule hn hs
    rw [shape?_linked] at hs
    by_cases hlt : n < a.states.size
    · rw [new.shape_old n hlt] at hs
      exact h.shape_inner n kind rule hn hs
    · obtain ⟨kind', hs', hne⟩ :=
        new.shape_new n (Nat.not_lt.mp hlt) (Automaton.lt_size_of_shape? hs)
      cases hs.symm.trans hs'
      exact ⟨hne, hk⟩
  case stays => exact fun n kind rule hn => h.linked_stays hk new hn
  case emitted =>
    intro n t ht
    have hold := h.emitted n t
    have hnew := new.emitted n
    rw [out] at ht
    grind [Bindings.Emits]
  case closed =>
    intro i hi
    rw [out, if_neg (by omega), if_neg (by omega), if_pos (by omega), h.closed i hi]
  case opened =>
    intro i hi hlt
    by_cases here : i = k
    · exact ⟨part.entry, by rw [out, if_pos (by omega)]⟩
    · rw [out, if_neg (by omega), if_neg (by omega), if_pos (by omega)]
      exact h.opened i (by omega) hlt
  case pending =>
    intro i hki hi
    rw [out, if_neg (by omega), if_neg (by omega), if_pos (by omega), h.pending i (by omega) hi]
  case spells =>
    intro i q hi hq calls w
    by_cases hlt : i < k
    · rw [h.linked_spells_before hk new hlt]
      exact h.spells i q hlt hq calls w
    · obtain rfl : i = k := by omega
      cases hp.symm.trans hq
      exact h.linked_spells hk new calls w

theorem rule {p : Production} {u : Unit} (h : Filled b productions k a)
    (hp : productions[k]? = some p) (hl : b.table.Types (bodyLiterals p))
    (hr : rule b k p a = .ok (u, a')) : Filled b productions (k + 1) a' := by
  obtain ⟨part, a₁, hb, hr⟩ := bind_ok hr
  obtain ⟨_, a₂, hs, hr⟩ := bind_ok hr
  obtain rfl := connect_ok hs
  obtain rfl := connect_ok hr
  exact h.link hp (body_fragment hl hb)

/-- What one rule preserves, all rules preserve. -/
theorem rulesFrom (hl : ∀ p ∈ productions, b.table.Types (bodyLiterals p)) :
    ∀ {rest : List Production} {k : Nat} {a : Automaton}, productions.drop k = rest →
      Filled b productions k a → rulesFrom b k rest a = .ok a' →
      Filled b productions productions.length a' := by
  intro rest
  induction rest with
  | nil =>
    intro k a hrest h hr
    cases hr
    have hk : productions.length ≤ k := List.drop_eq_nil_iff.mp hrest
    exact { h with
      opened := fun i hi => h.opened i (by omega)
      pending := fun i hi => by omega
      spells := fun i p hi => h.spells i p (by omega) }
  | cons p rest ih =>
    intro k a hrest h hr
    have hp : productions[k]? = some p := by
      rw [← List.head?_drop, hrest, List.head?_cons]
    rw [Compile.rulesFrom] at hr
    cases hrule : Compile.rule b k p a with
    | error fault => simp [hrule] at hr
    | ok found =>
      obtain ⟨u, a₁⟩ := found
      simp only [hrule] at hr
      refine ih ?_ (h.rule hp (hl p (List.mem_of_getElem? hp)) hrule) hr
      rw [← List.tail_drop, hrest, List.tail_cons]

theorem widen (h : Filled b productions k a) {symbol : Symbol}
    (within : ∀ top, Below b top → 0 ≤ top → symbol ≤ top) :
    Filled b productions k (a.widen symbol) := by
  constructor
  case assembled => exact h.assembled.widen symbol
  case greatest =>
    intro top below positive
    unfold Automaton.widen
    split
    · exact within top below positive
    · exact h.greatest top below positive
  case rules => simpa using h.rules
  case shape_start => simpa using h.shape_start
  case shape_stop => simpa using h.shape_stop
  case shape_inner => simpa using h.shape_inner
  case stays => simpa using h.stays
  case emitted => simpa using h.emitted
  case closed => simpa using h.closed
  case opened => simpa using h.opened
  case pending => simpa using h.pending
  case spells =>
    have same : (a.widen symbol).transitionsAt = a.transitionsAt := by
      funext n
      exact Automaton.transitionsAt_widen a n symbol
    rw [same]
    exact h.spells

end Filled

end Compile

/-! ## Token types of literals -/

namespace TokenTable

theorem literalSymbol?_addLiteral {table : TokenTable} {text : Bytes} {x : Symbol} (more : Bytes)
    (h : table.literalSymbol? text = some x) :
    (table.addLiteral more).literalSymbol? text = some x := by
  unfold addLiteral
  split
  · exact h
  · obtain ⟨i, hi, rfl⟩ := Option.map_eq_some_iff.mp h
    simp [literalSymbol?, List.findIdx?_append, hi]

theorem addLiteral_types (table : TokenTable) (text : Bytes) :
    ∃ x, (table.addLiteral text).literalSymbol? text = some x := by
  unfold addLiteral
  split
  case isTrue h => exact Option.isSome_iff_exists.mp h
  case isFalse h =>
    rw [← Option.isSome_iff_exists]
    simp [literalSymbol?, TokenEntry.ofLiteral, List.findIdx?_append]

theorem foldl_addLiteral_keeps {text : Bytes} {x : Symbol} (texts : List Bytes) :
    ∀ {table : TokenTable}, table.literalSymbol? text = some x →
      (texts.foldl addLiteral table).literalSymbol? text = some x := by
  induction texts with
  | nil => exact id
  | cons more texts ih => exact fun h => ih (literalSymbol?_addLiteral more h)

theorem foldl_addLiteral_types (texts : List Bytes) :
    ∀ table : TokenTable, (texts.foldl addLiteral table).Types texts := by
  induction texts with
  | nil => simp [Types]
  | cons text texts ih =>
    intro table other hmem
    rcases List.mem_cons.mp hmem with rfl | hmem
    · obtain ⟨x, hx⟩ := addLiteral_types table other
      exact ⟨x, foldl_addLiteral_keeps texts hx⟩
    · exact ih _ other hmem

/-- Every literal of a parser rule has a token type. -/
theorem ofSource_types {source : Source} {p : Production} (skip : List Bytes)
    (hp : p ∈ source.ofKind .rule) :
    (ofSource source skip).Types (Compile.bodyLiterals p) := by
  intro text ht
  exact foldl_addLiteral_types _ _ text (List.mem_flatMap.mpr ⟨p, hp, ht⟩)

end TokenTable

namespace Compile

theorem mem_ruleProductions {source : Source} {start : Bytes} {p : Production} :
    p ∈ ruleProductions source start ↔ p ∈ source.ofKind .rule := by
  simp only [ruleProductions, List.mem_append, List.mem_filter]
  grind

def bindings (source : Source) (start : Bytes) (table : TokenTable) : Bindings :=
  ⟨table, (ruleProductions source start).map fun p => p.name.text⟩

theorem Below.maxSymbol_le {top : Symbol} (below : Below b top) (positive : 0 ≤ top) :
    b.table.maxSymbol ≤ top := by
  unfold TokenTable.maxSymbol
  cases count : b.table.entries.length with
  | zero => exact positive
  | succ n => exact below n (by omega)

theorem filled_of_automaton {source : Source} {start : Bytes} {skip : List Bytes} {a : Automaton}
    (h : automaton source start (TokenTable.ofSource source skip) = .ok a) :
    Filled (bindings source start (TokenTable.ofSource source skip))
      (ruleProductions source start) (ruleProductions source start).length a := by
  simp only [automaton, bind, Except.bind] at h
  split at h
  case h_1 => cases h
  case h_2 a₁ hr =>
    cases h
    refine Filled.widen (Filled.rulesFrom ?_ List.drop_zero (declared_empty.addRules _).filled hr)
      fun _ below positive => below.maxSymbol_le positive
    intro p hp
    exact TokenTable.ofSource_types skip (mem_ruleProductions.mp hp)

end Compile

end GrammarCompletion
