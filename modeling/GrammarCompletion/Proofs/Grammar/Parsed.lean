import GrammarCompletion.Grammar.Basic
import GrammarCompletion.Proofs.Completion.FirstSets
import GrammarCompletion.Proofs.Ebnf.Size
import GrammarCompletion.Proofs.Grammar.Preservation
import Mathlib.Algebra.Group.Nat.Defs

/-!
# Automata of grammars

What a grammar read from a source brings along: its automaton is well formed, and every label is a
single token type between the reserved symbols and the greatest one, if the length of the source
fits a machine word.
-/

namespace GrammarCompletion

open Ebnf Automaton

/-! ## The number of token types -/

namespace TokenTable

theorem length_addLiteral_le (table : TokenTable) (text : Bytes) :
    (table.addLiteral text).entries.length ≤ table.entries.length + 1 := by
  unfold addLiteral
  split <;> simp

theorem length_foldl_addLiteral_le (texts : List Bytes) :
    ∀ table : TokenTable,
      (texts.foldl addLiteral table).entries.length ≤ table.entries.length + texts.length := by
  induction texts with
  | nil => simp
  | cons text texts ih =>
    intro table
    have step := length_addLiteral_le table text
    have rest := ih (table.addLiteral text)
    simp only [List.foldl_cons, List.length_cons]
    omega

theorem length_ofSource_le (source : Source) (skip : List Bytes) :
    (ofSource source skip).entries.length + source.length ≤ Reader.sourceCost source := by
  have fold := length_foldl_addLiteral_le
    ((source.ofKind .rule).flatMap fun p => (p.body.map Expr.literals).getD [])
    ⟨(source.ofKind .token).map (TokenEntry.ofProduction skip)⟩
  have counted : (source.ofKind .token).length +
      ((source.ofKind .rule).flatMap fun p => (p.body.map Expr.literals).getD []).length +
      source.length ≤ Reader.sourceCost source := by
    clear fold
    induction source with
    | nil => simp [Source.ofKind]
    | cons p source ih =>
      have body : ((p.body.map Expr.literals).getD []).length = Reader.literalCount p.body := by
        cases p.body <;> rfl
      simp only [Source.ofKind, Reader.sourceCost, List.filter_cons, List.foldr_cons,
        List.length_cons, List.length_flatMap, Reader.productionCost] at ih ⊢
      cases kindOf p.name.text with
      | fragment => simp; omega
      | token => simp; omega
      | rule => simp [body]; omega
  simp only [List.length_map] at fold
  exact Nat.le_trans (Nat.add_le_add_right fold _) counted

/-- The types of a source fit a machine word if its length does. -/
theorem length_ofSource_lt {name text : Bytes} {source : Source} (hread : read name text = .ok source)
    (small : text.length < 2 ^ 63) (skip : List Bytes) :
    (ofSource source skip).entries.length + 1 < 2 ^ 63 := by
  have cost := sourceCost_le_of_read hread
  have types := length_ofSource_le source skip
  by_cases empty : source = []
  · rw [empty] at types ⊢
    simp only [Reader.sourceCost, List.foldr_nil] at types
    omega
  · have := List.length_pos_iff.mpr empty
    omega

theorem toInt_symbolAt {i count : Nat} (hi : i < count) (hc : count + 1 < 2 ^ 63) :
    (symbolAt i).toInt = i + 1 := by
  unfold symbolAt
  rw [Int64.toInt_ofNat_of_lt] <;> omega

theorem symbolAt_inj {i j count : Nat} (hi : i < count) (hj : j < count) (hc : count + 1 < 2 ^ 63)
    (same : symbolAt i = symbolAt j) : i = j := by
  have values := congrArg Int64.toInt same
  rw [toInt_symbolAt hi hc, toInt_symbolAt hj hc] at values
  omega

theorem symbolAt_bounds {i count : Nat} (hi : i < count) (hc : count + 1 < 2 ^ 63) :
    Symbol.firstUser ≤ symbolAt i ∧ symbolAt i < Int64.maxValue := by
  have value := toInt_symbolAt hi hc
  have first : Symbol.firstUser.toInt = 1 := by decide
  have greatest : Int64.maxValue.toInt = 2 ^ 63 - 1 := by decide
  rw [Int64.le_iff_toInt_le, Int64.lt_iff_toInt_lt, value, first, greatest]
  omega

theorem toInt_maxSymbol {table : TokenTable} (small : table.entries.length + 1 < 2 ^ 63) :
    table.maxSymbol.toInt = table.entries.length := by
  unfold maxSymbol
  rw [Int64.toInt_ofNat_of_lt]
  omega

theorem symbolAt_le_maxSymbol {table : TokenTable} {i : Nat} (hi : i < table.entries.length)
    (small : table.entries.length + 1 < 2 ^ 63) : symbolAt i ≤ table.maxSymbol := by
  rw [Int64.le_iff_toInt_le, toInt_maxSymbol small, toInt_symbolAt hi small]
  omega

theorem maxSymbol_bounds {table : TokenTable} (small : table.entries.length + 1 < 2 ^ 63) :
    0 ≤ table.maxSymbol ∧ table.maxSymbol < Int64.maxValue := by
  have zero : (0 : Symbol).toInt = 0 := by decide
  have greatest : Int64.maxValue.toInt = 2 ^ 63 - 1 := by decide
  rw [Int64.le_iff_toInt_le, Int64.lt_iff_toInt_lt, toInt_maxSymbol small, zero, greatest]
  omega

end TokenTable

/-! ## What a grammar is made of -/

namespace Grammar

variable {name text start : Bytes} {skip : List Bytes} {g : Grammar}

theorem parse_ok (h : parse name text start skip = .ok g) :
    read name text = .ok g.source ∧ g.table = TokenTable.ofSource g.source skip ∧
      Compile.automaton g.source start (TokenTable.ofSource g.source skip) = .ok g.automaton := by
  unfold parse at h
  split at h
  case h_1 => cases h
  case h_2 source hread =>
    split at h
    case h_1 => cases h
    case h_2 =>
      simp only [ofSource] at h
      split at h
      case h_1 => cases h
      case h_2 automaton hc =>
        cases h
        exact ⟨hread, rfl, hc⟩

theorem filled (h : parse name text start skip = .ok g) :
    Compile.Filled (Compile.bindings g.source start g.table)
      (Compile.ruleProductions g.source start) (Compile.ruleProductions g.source start).length
      g.automaton := by
  obtain ⟨-, htable, hc⟩ := parse_ok h
  rw [htable]
  exact Compile.filled_of_automaton hc

theorem length_entries_lt (h : parse name text start skip = .ok g) (small : text.length < 2 ^ 63) :
    g.table.entries.length + 1 < 2 ^ 63 := by
  obtain ⟨hread, htable, -⟩ := parse_ok h
  rw [htable]
  exact TokenTable.length_ofSource_lt hread small skip

end Grammar

namespace Compile.Filled

variable {b : Bindings} {productions : List Production} {k : Nat} {a : Automaton}

theorem wellFormed (h : Filled b productions k a) : a.WellFormed where
  inPlace := h.assembled.rulesInPlace
  stays := h.staysInRule
  stop_eq := by
    intro n rule hn
    obtain ⟨rfl, hlt⟩ := h.eq_of_stop hn
    exact ⟨_, h.rule_of_production (List.getElem?_eq_getElem hlt), rfl⟩
  stop_closed := by
    intro n hn
    obtain ⟨rule, hn⟩ := isStop_iff.mp hn
    obtain ⟨rfl, hlt⟩ := h.eq_of_stop hn
    exact h.closed rule hlt

end Compile.Filled

namespace Grammar

variable {name text start : Bytes} {skip : List Bytes} {g : Grammar}

/-- The token types that an automaton offers are neither reserved nor the greatest symbol. -/
theorem bounds_of_offers (h : parse name text start skip = .ok g) (small : text.length < 2 ^ 63)
    {n : Nat} {x : Symbol} (hx : g.automaton.Offers n x) :
    Symbol.firstUser ≤ x ∧ x < Int64.maxValue := by
  obtain ⟨target, ht⟩ := Automaton.atom_of_offers (filled h).plain hx
  obtain ⟨i, hi, rfl⟩ := (filled h).emitted n _ ht
  exact TokenTable.symbolAt_bounds hi (length_entries_lt h small)

theorem positiveLabels (h : parse name text start skip = .ok g) (small : text.length < 2 ^ 63) :
    g.automaton.PositiveLabels := by
  intro n t ht
  have plain := (filled h).plain n t ht
  cases t with
  | atom target x =>
    exact (bounds_of_offers h small
      ⟨_, ht, _, rfl, IntervalSet.mem_singleton.mpr rfl⟩).1
  | epsilon | call => trivial
  | set | notSet | wildcard | predicate => exact plain.elim

theorem verify_ok {source : Source} (h : verify source start skip = .ok ()) :
    kindOf start = .rule ∧ source.check (root start skip) = [] := by
  unfold verify at h
  simp only [bind, Except.bind] at h
  by_cases isRule : kindOf start = .rule
  · refine ⟨isRule, ?_⟩
    cases skipped : verifySkip source skip with
    | error e => simp [isRule, skipped] at h
    | ok u =>
      cases errors : source.check (root start skip) with
      | nil => rfl
      | cons e rest => simp [isRule, skipped, errors, throw, throwThe, MonadExceptOf.throw] at h
  · simp [isRule, throw, throwThe, MonadExceptOf.throw] at h

theorem verified (h : parse name text start skip = .ok g) :
    kindOf start = .rule ∧ g.source.check (root start skip) = [] := by
  have read := (parse_ok h).1
  unfold parse at h
  rw [read] at h
  cases outcome : verify g.source start skip with
  | error e => simp [outcome] at h
  | ok u => exact verify_ok outcome

theorem productionErrors_of_check {source : Source} {top : Production} (h : source.check top = []) :
    productionErrors source top = [] ∧ ∀ p ∈ source, productionErrors source p = [] := by
  have sorted : (source.check top).length = 0 := congrArg List.length h
  rw [Source.check, List.length_mergeSort, List.length_eq_zero_iff, List.append_eq_nil_iff,
    List.flatMap_eq_nil_iff] at sorted
  refine ⟨sorted.1, fun p member => ?_⟩
  have errors := sorted.2 p member
  split at errors
  · exact errors
  · cases errors

theorem find?_of_productionErrors {source : Source} {p : Production}
    (h : productionErrors source p = []) {n : Located} (member : n ∈ p.names) :
    ∃ q, source.find? n.text = some q := by
  rw [productionErrors, List.append_eq_nil_iff, List.flatMap_eq_nil_iff] at h
  have errors := h.1 n member
  rw [nameErrors, List.append_eq_nil_iff] at errors
  by_cases known : (source.find? n.text).isSome
  · exact Option.isSome_iff_exists.mp known
  · simp [known] at errors

/-- What is checked from a root that names a production finds that production. -/
theorem find?_of_check {source : Source} (h : source.check (root start skip) = []) :
    ∃ p, source.find? start = some p := by
  have named : Located.unplaced start ∈ (root start skip).names := by
    simp [root, Production.names, Expr.names, Expr.namesOfAll]
  exact find?_of_productionErrors (productionErrors_of_check h).1 named

theorem exists_start (h : parse name text start skip = .ok g) :
    ∃ p ∈ g.source.ofKind .rule, p.name.text = start := by
  obtain ⟨isRule, checked⟩ := verified h
  obtain ⟨p, found⟩ := find?_of_check checked
  have named : p.name.text = start := by simpa using List.find?_some found
  refine ⟨p, List.mem_filter.mpr ⟨List.mem_of_find?_eq_some found, ?_⟩, named⟩
  simp [named, isRule]

theorem exists_rule_zero (h : parse name text start skip = .ok g) :
    ∃ r, g.automaton.rule? 0 = some r := by
  obtain ⟨p, isRule, -⟩ := exists_start h
  have member : p ∈ Compile.ruleProductions g.source start :=
    Compile.mem_ruleProductions.mpr isRule
  obtain ⟨first, head⟩ : ∃ first, (Compile.ruleProductions g.source start)[0]? = some first :=
    ⟨_, List.getElem?_eq_getElem (List.length_pos_of_mem member)⟩
  refine ⟨Compile.declared 0 first.name.text, ?_⟩
  unfold Automaton.rule?
  rw [if_neg (by decide)]
  simpa [head] using (filled h).rules 0

theorem maxSymbol_le (h : parse name text start skip = .ok g) :
    g.table.maxSymbol ≤ g.automaton.maxSymbol := by
  obtain ⟨-, htable, compiled⟩ := parse_ok h
  simp only [Compile.automaton, bind, Except.bind] at compiled
  split at compiled
  case h_1 => cases compiled
  case h_2 a _ =>
    rw [← Except.ok.inj compiled, ← htable]
    unfold Automaton.widen
    split
    · exact Int64.le_refl _
    · next within => exact Int64.not_lt.mp within

theorem maxSymbol_eq (h : parse name text start skip = .ok g) (small : text.length < 2 ^ 63) :
    g.automaton.maxSymbol = g.table.maxSymbol := by
  have count := length_entries_lt h small
  apply Int64.le_antisymm
  · apply (filled h).greatest
    · exact fun i hi => TokenTable.symbolAt_le_maxSymbol hi count
    · exact (TokenTable.maxSymbol_bounds count).1
  · exact maxSymbol_le h

theorem smallLabels (h : parse name text start skip = .ok g) (small : text.length < 2 ^ 63) :
    g.automaton.SmallLabels := by
  constructor
  · rw [maxSymbol_eq h small]
    exact (TokenTable.maxSymbol_bounds (length_entries_lt h small)).2
  · intro n t ht
    have plain := (filled h).plain n t ht
    cases t with
    | atom target x =>
      exact (bounds_of_offers h small
        ⟨_, ht, _, rfl, IntervalSet.mem_singleton.mpr rfl⟩).2
    | epsilon | call => trivial
    | set | notSet | wildcard | predicate => exact plain.elim

end Grammar

end GrammarCompletion
