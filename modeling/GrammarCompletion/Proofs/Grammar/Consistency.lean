import GrammarCompletion.Automaton.Listing
import GrammarCompletion.Proofs.Grammar.References
import Mathlib.Data.List.Nodup

/-!
# Consistent grammars

A search relies on the automaton and the names of a grammar without checking them: states and rules are
known by their positions, transitions stay in their rule, and labels are token types that have a name
and a rule of the lexer. All of this holds for every grammar that can be parsed.
-/

namespace GrammarCompletion

open Ebnf

/-! ## Automata -/

namespace Automaton

variable {a : Automaton}

def Numbered (a : Automaton) : Prop :=
  ∀ (n : Nat) (s : State), a.states[n]? = some s → s.number = n

theorem Numbered.addState (h : a.Numbered) (rule : Nat) (kind : StateKind) :
    (a.addState rule kind).Numbered := by
  intro n s hs
  rw [Automaton.addState, Array.getElem?_push] at hs
  split at hs
  · next here =>
    cases hs
    exact here.symm
  · exact h n s hs

theorem Numbered.connect (h : a.Numbered) (source : Nat) (t : Transition) :
    (a.connect source t).Numbered := by
  intro n s hs
  rw [states_connect, Array.getElem?_modify] at hs
  split at hs
  · obtain ⟨s', hs', rfl⟩ := Option.map_eq_some_iff.mp hs
    exact h n s' hs'
  · exact h n s hs

theorem Assembled.numbered (h : a.Assembled) : a.Numbered := by
  induction h with
  | empty => intro n s hs; simp [Automaton.empty] at hs
  | @addRule a _ name ih =>
    have declared : ∀ rules, Numbered ⟨a.states, rules, a.maxSymbol⟩ := fun _ => ih
    exact ((declared _).addState a.rules.size .ruleStart).addState a.rules.size .ruleStop
  | addState _ rule kind ih => exact ih.addState rule kind
  | connect _ source t ih => exact ih.connect source t
  | widen _ symbol ih =>
    intro n s hs
    rw [states_widen] at hs
    exact ih n s hs

/-- What a search relies on. -/
structure Consistent (a : Automaton) : Prop where
  numbered : a.Numbered
  indexed : ∀ (i : Nat) (r : Rule), a.rules[i]? = some r → r.index = i
  owned : ∀ (n : Nat) (s : State), a.states[n]? = some s → ∃ r, a.rules[s.rule]? = some r
  -- a rule has no other states of these kinds
  start_iff : ∀ n i, a.shape? n = some (.ruleStart, i) ↔ ∃ r, a.rules[i]? = some r ∧ r.start = n
  stop_iff : ∀ n i, a.shape? n = some (.ruleStop, i) ↔ ∃ r, a.rules[i]? = some r ∧ r.stop = n
  opened : ∀ (i : Nat) (r : Rule), a.rules[i]? = some r →
    ∃ entry, a.transitionsAt r.start = [.epsilon entry]
  closed : ∀ (i : Nat) (r : Rule), a.rules[i]? = some r → a.transitionsAt r.stop = []
  stays : a.StaysInRule
  called : ∀ n callee follow, .call callee follow ∈ a.transitionsAt n →
    ∃ r, a.rules[callee]? = some r ∧ a.entered (.call callee follow) = r.start
  labelled : ∀ n, ∀ t ∈ a.transitionsAt n, (∃ target, t = .epsilon target) ∨
    (∃ callee follow, t = .call callee follow) ∨
    ∃ target x, t = .atom target x ∧ Symbol.firstUser ≤ x ∧ x ≤ a.maxSymbol

end Automaton

namespace Compile.Filled

variable {b : Bindings} {productions : List Production} {a : Automaton}

theorem consistent (h : Filled b productions productions.length a)
    (named : b.rules.length = productions.length)
    (typed : ∀ i, i < b.table.entries.length →
      Symbol.firstUser ≤ TokenTable.symbolAt i ∧ TokenTable.symbolAt i ≤ a.maxSymbol) :
    a.Consistent where
  numbered := h.assembled.numbered
  indexed i r hr := by
    obtain ⟨p, -, rfl⟩ := h.production_of_rule hr
    rfl
  owned n s hs := by
    have inside := (h.shape_cases (Automaton.shape?_of_state hs)).1
    exact ⟨_, h.rule_of_production (List.getElem?_eq_getElem inside)⟩
  start_iff n i := by
    constructor
    · intro hn
      obtain ⟨rfl, inside⟩ := h.eq_of_start hn
      exact ⟨_, h.rule_of_production (List.getElem?_eq_getElem inside), rfl⟩
    · rintro ⟨r, hr, rfl⟩
      exact (h.assembled.rulesInPlace i r hr).1
  stop_iff n i := by
    constructor
    · intro hn
      obtain ⟨rfl, inside⟩ := h.eq_of_stop hn
      exact ⟨_, h.rule_of_production (List.getElem?_eq_getElem inside), rfl⟩
    · rintro ⟨r, hr, rfl⟩
      exact (h.assembled.rulesInPlace i r hr).2
  opened i r hr := by
    obtain ⟨p, hp, rfl⟩ := h.production_of_rule hr
    exact h.opened i (lt_of_production hp) (lt_of_production hp)
  closed i r hr := by
    obtain ⟨p, hp, rfl⟩ := h.production_of_rule hr
    exact h.closed i (lt_of_production hp)
  stays := h.staysInRule
  called n callee follow ht := by
    have inside : callee < productions.length := named ▸ h.emitted n _ ht
    have hr := h.rule_of_production (List.getElem?_eq_getElem inside)
    exact ⟨_, hr, by rw [Automaton.entered, hr, Option.elim_some]⟩
  labelled n t ht := by
    have emits := h.emitted n t ht
    cases t with
    | epsilon target => exact .inl ⟨target, rfl⟩
    | call callee follow => exact .inr (.inl ⟨callee, follow, rfl⟩)
    | atom target x =>
      obtain ⟨i, hi, rfl⟩ := emits
      exact .inr (.inr ⟨target, _, rfl, typed i hi⟩)
    | set | notSet | wildcard | predicate => exact emits.elim

end Compile.Filled

/-! ## Grammars -/

theorem Ebnf.Source.Declared.find?_name {source : Source} (h : source.Declared) {p : Production}
    (hp : p ∈ source) : source.find? p.name.text = some p := by
  cases found : source.find? p.name.text with
  | none =>
    have other := List.find?_eq_none.mp found p hp
    simp at other
  | some q =>
    have same : q.name.text = p.name.text := by simpa using List.find?_some found
    rw [List.inj_on_of_nodup_map h.nodup (List.mem_of_find?_eq_some found) hp same]

namespace TokenTable

/-- The rules of the lexer have the types from one on, each once. -/
theorem symbols_lexRules {table : TokenTable} (small : table.entries.length + 1 < 2 ^ 63) :
    table.lexRules.map (fun rule => rule.symbol.toInt) =
      (List.range table.entries.length).map fun i : Nat => (i : Int) + 1 := by
  apply List.ext_getElem
  · simp [lexRules]
  · intro i hi _
    have inside : i < table.entries.length := by simpa [lexRules] using hi
    simp [lexRules, TokenEntry.lexRule, toInt_symbolAt inside small]

end TokenTable

namespace Grammar

variable {name text start : Bytes} {skip : List Bytes} {g : Grammar}

theorem consistent (h : parse name text start skip = .ok g) (small : text.length < 2 ^ 63) :
    g.automaton.Consistent := by
  have count := length_entries_lt h small
  refine (filled h).consistent (by simp [Compile.bindings]) fun i hi => ⟨?_, ?_⟩
  · exact (TokenTable.symbolAt_bounds hi count).1
  · rw [maxSymbol_eq h small]
    exact TokenTable.symbolAt_le_maxSymbol hi count

/-- The start rule comes first, then the others as they are declared. -/
theorem ruleNames_eq (h : parse name text start skip = .ok g) :
    g.automaton.ruleNames = start :: (g.productions .rule).filter (· != start) := by
  have names : g.automaton.ruleNames =
      (Compile.ruleProductions g.source start).map fun p => p.name.text := by
    apply List.ext_getElem?
    intro i
    rw [Automaton.ruleNames, List.getElem?_map, Array.getElem?_toList, (filled h).rules,
      List.getElem?_map, Option.map_map]
    rfl
  have distinct : (g.productions .rule).Nodup := (declared h).nodup_ofKind .rule
  have once : (g.productions .rule).filter (· == start) = [start] := by
    rw [List.filter_beq, List.count_eq_one_of_mem distinct (List.mem_map.mpr (exists_start h))]
    rfl
  rw [names, Compile.ruleProductions, List.map_append, ← List.singleton_append, ← once, productions,
    List.filter_map, List.filter_map]
  rfl

theorem labelsOf_production (h : parse name text start skip = .ok g) {i : Nat} {p : Production}
    (hp : (Compile.ruleProductions g.source start)[i]? = some p) :
    (g.automaton.labelsOf i).map some = p.references.map g.table.type? := by
  obtain ⟨-, table, compiled⟩ := parse_ok h
  rw [table]
  exact Compile.labelsOf_automaton compiled hp

/-- The labels of a rule are the types of the references in its production. -/
theorem labelsOf_rule (h : parse name text start skip = .ok g) {i : Nat} {r : Rule}
    (hr : g.automaton.rules[i]? = some r) :
    ∃ p ∈ g.source.ofKind .rule, g.source.find? r.name = some p ∧
      (g.automaton.labelsOf i).map some = p.references.map g.table.type? := by
  obtain ⟨p, hp, rfl⟩ := (filled h).production_of_rule hr
  have isRule := Compile.mem_ruleProductions.mp (List.mem_of_getElem? hp)
  have found := (declared h).find?_name (List.mem_filter.mp isRule).1
  exact ⟨p, isRule, found, labelsOf_production h hp⟩

theorem exists_type (h : parse name text start skip = .ok g) {p : Production} {r : Reference}
    (hp : p ∈ g.source.ofKind .rule) (hr : r ∈ p.references) : ∃ x, g.table.type? r = some x := by
  have compiled : p ∈ Compile.ruleProductions g.source start := Compile.mem_ruleProductions.mpr hp
  obtain ⟨i, hi⟩ := List.mem_iff_getElem?.mp compiled
  have label : g.table.type? r ∈ (g.automaton.labelsOf i).map some := by
    rw [labelsOf_production h hi]
    exact List.mem_map_of_mem hr
  obtain ⟨x, -, typed⟩ := List.mem_map.mp label
  exact ⟨x, typed.symm⟩

/-- A grammar that can be parsed is consistent. Its rules are the start rule and then the others in the
order of their declarations. Every type has an entry in both lists of names, besides the type zero, and
one rule of the lexer. The labels of a rule are the types of the references in its production, one by
one, and references of parser rules have the same type if and only if they are to the same token. -/
theorem parse_consistent (h : parse name text start skip = .ok g) (small : text.length < 2 ^ 63) :
    g.automaton.Consistent ∧
      (g.source.Declared ∧
        g.automaton.ruleNames = start :: (g.productions .rule).filter (· != start)) ∧
      ((g.vocabulary.literalNames.size : Int) = g.automaton.maxSymbol.toInt + 1 ∧
        (g.vocabulary.symbolicNames.size : Int) = g.automaton.maxSymbol.toInt + 1) ∧
      (∃ count : Nat, g.automaton.maxSymbol.toInt = count ∧
        g.table.lexRules.map (fun rule => rule.symbol.toInt) =
          (List.range count).map (fun i : Nat => (i : Int) + 1) ∧
        ∀ file, (g.lexer file).rules.Perm g.table.lexRules) ∧
      (∀ (i : Nat) (r : Rule), g.automaton.rules[i]? = some r →
        ∃ p ∈ g.source.ofKind .rule, g.source.find? r.name = some p ∧
          (g.automaton.labelsOf i).map some = p.references.map g.table.type?) ∧
      ∀ p ∈ g.source.ofKind .rule, ∀ q ∈ g.source.ofKind .rule,
        ∀ r ∈ p.references, ∀ s ∈ q.references,
          (g.table.type? r = g.table.type? s ↔ g.source.SameToken r s) := by
  have count := length_entries_lt h small
  have greatest : g.automaton.maxSymbol.toInt = g.table.entries.length := by
    rw [maxSymbol_eq h small, TokenTable.toInt_maxSymbol count]
  refine ⟨consistent h small, ⟨declared h, ruleNames_eq h⟩, ⟨?_, ?_⟩, ⟨_, greatest, ?_, ?_⟩,
    fun i r hr => labelsOf_rule h hr, ?_⟩
  · rw [greatest]
    simp [vocabulary, TokenTable.vocabulary]
  · rw [greatest]
    simp [vocabulary, TokenTable.vocabulary]
  · exact TokenTable.symbols_lexRules count
  · intro file
    exact List.filter_append_perm (fun rule : LexRule => rule.isLiteral) g.table.lexRules
  · intro p hp q hq r hr s hs
    obtain ⟨x, hx⟩ := exists_type h hp hr
    obtain ⟨y, hy⟩ := exists_type h hq hs
    obtain ⟨-, table, -⟩ := parse_ok h
    rw [hx, hy, Option.some.injEq]
    rw [table] at hx hy count
    exact TokenTable.type?_eq_iff (declared h) count hx hy

/-- A start rule that comes second, two tokens with one text, and texts with and without a token. -/
def commas : Bytes :=
  "Item = NAME [ \",\" ] . List = Item \x7b \",\" Item \x7d COMMA ALSO \"(\" SEMI \";\" . " ++
    "NAME = \"a\" … \"z\" . COMMA = \",\" . ALSO = \",\" . SEMI = \";\" ."

/-- The comma is the first of its two tokens, and the parenthesis has a type behind them. -/
theorem parse_consistent_commas :
    ∃ g, parse "list" commas "List" [] = .ok g ∧ g.automaton.Consistent ∧
      g.automaton.ruleNames = (["List", "Item"] : List Bytes) ∧
      g.automaton.labelsOf 0 = [2, 2, 3, 5, 4, 4] ∧ g.automaton.labelsOf 1 = [1, 2] ∧
      g.source.SameToken (.text ",") (.token "COMMA") ∧
      ¬ g.source.SameToken (.text ",") (.token "ALSO") := by
  have answered : (parse "list" commas "List" []).toOption.map (fun g => decide
      ((g.automaton.labelsOf 0 = [2, 2, 3, 5, 4, 4] ∧ g.automaton.labelsOf 1 = [1, 2]) ∧
        (g.source.ofKind .rule).map Production.references = [[.token "NAME", .text ","],
          [.text ",", .token "COMMA", .token "ALSO", .text "(", .token "SEMI", .text ";"]] ∧
        (g.productions .rule).filter (· != "List") = (["Item"] : List Bytes) ∧
        g.table.type? (.text ",") = some 2 ∧ g.table.type? (.token "COMMA") = some 2 ∧
        g.table.type? (.token "ALSO") = some 3)) = some true := by
    decide +kernel
  obtain ⟨g, parsed, found⟩ := exists_ok_of_toOption answered
  obtain ⟨labels, references, others, text, first, second⟩ := of_decide_eq_true found
  obtain ⟨consistent, ⟨-, names⟩, -, -, -, same⟩ :=
    parse_consistent parsed (by decide +kernel)
  have refers : ∃ p ∈ g.source.ofKind .rule, p.references =
      [.text ",", .token "COMMA", .token "ALSO", .text "(", .token "SEMI", .text ";"] :=
    List.mem_map.mp (references ▸ by simp)
  obtain ⟨p, isRule, refs⟩ := refers
  have written : .text "," ∈ p.references := by simp [refs]
  have comma : .token "COMMA" ∈ p.references := by simp [refs]
  have also : .token "ALSO" ∈ p.references := by simp [refs]
  refine ⟨g, parsed, consistent, by rw [names, others], labels.1, labels.2, ?_, ?_⟩
  · exact (same p isRule p isRule _ written _ comma).mp (text.trans first.symm)
  · rw [← same p isRule p isRule _ written _ also, text, second]
    decide

end Grammar

end GrammarCompletion
