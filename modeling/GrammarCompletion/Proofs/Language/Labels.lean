import GrammarCompletion.Proofs.Grammar.Names
import GrammarCompletion.Proofs.Language.Answers

/-!
# Labels of proposals

An editor shows a proposal by its label only. The label of a token is the name of its type, that of a
rule the name of the rule, and each is found again. So no two proposals of an answer have the same
label, and the tokens among them are the candidates and what must follow them, each once.
-/

namespace GrammarCompletion

open Ebnf Automaton

namespace Candidates

variable {c : Candidates} {a : Automaton}

theorem mem_symbols {x : Symbol} :
    x ∈ c.symbols ↔ ∃ t hint, c.tokens[t]? = some hint ∧ (x = t ∨ x ∈ hint) := by
  have inserted : ∀ (hint : List Symbol) (seen : Std.TreeMap Symbol Unit),
      x ∈ hint.foldl (fun seen f => seen.insert f ()) seen ↔ x ∈ seen ∨ x ∈ hint := by
    intro hint
    induction hint with
    | nil => simp
    | cons y hint ih =>
      intro seen
      rw [List.foldl_cons, ih, Std.TreeMap.mem_insert, Std.LawfulEqCmp.compare_eq_iff_eq,
        List.mem_cons]
      grind
  have fold : ∀ (entries : List (Symbol × List Symbol)) (seen : Std.TreeMap Symbol Unit),
      x ∈ entries.foldl (fun seen e =>
        e.2.foldl (fun seen f => seen.insert f ()) (seen.insert e.1 ())) seen ↔
        x ∈ seen ∨ ∃ e ∈ entries, x = e.1 ∨ x ∈ e.2 := by
    intro entries
    induction entries with
    | nil => simp
    | cons e entries ih =>
      intro seen
      rw [List.foldl_cons, ih, inserted, Std.TreeMap.mem_insert, Std.LawfulEqCmp.compare_eq_iff_eq,
        List.exists_mem_cons_iff]
      grind
  rw [symbols, Std.TreeMap.mem_keys, Std.TreeMap.foldl_eq_foldl_toList, fold]
  constructor
  · rintro (none | ⟨e, member, which⟩)
    · simp at none
    · exact ⟨e.1, e.2, Std.TreeMap.mem_toList_iff_getElem?_eq_some.mp member, which⟩
  · rintro ⟨t, hint, found, which⟩
    exact .inr ⟨(t, hint), Std.TreeMap.mem_toList_iff_getElem?_eq_some.mpr found, which⟩

theorem nodup_symbols (c : Candidates) : c.symbols.Nodup := Std.TreeMap.nodup_keys

theorem Within.hasType (h : c.Within a) {x : Symbol} (hx : x ∈ c.symbols) : a.HasType x := by
  obtain ⟨t, hint, found, which⟩ := mem_symbols.mp hx
  obtain ⟨own, following⟩ := h.tokens t hint found
  rcases which with rfl | member
  · exact own
  · exact following x member

theorem Within.hasRule (h : c.Within a) {rule : Int} (hr : rule ∈ c.ruleIndexes) :
    a.HasRule rule := by
  rw [ruleIndexes, Std.TreeMap.mem_keys, Std.TreeMap.mem_iff_isSome_getElem?] at hr
  obtain ⟨path, found⟩ := Option.isSome_iff_exists.mp hr
  exact (h.rules rule path found).1

def onlyFollowing (c : Candidates) : List Symbol := c.symbols.filter fun t => !c.tokens.contains t

theorem nodup_tokens_following (c : Candidates) : (c.tokenTypes ++ c.onlyFollowing).Nodup := by
  refine List.nodup_append.mpr ⟨Std.TreeMap.nodup_keys, c.nodup_symbols.filter _, ?_⟩
  rintro t candidate _ following rfl
  have other := (List.mem_filter.mp following).2
  rw [Std.TreeMap.contains_iff_mem.mpr (Std.TreeMap.mem_keys.mp candidate)] at other
  cases other

/-- Candidates and what only follows them are all types that are candidates or follow one. -/
theorem perm_symbols (c : Candidates) : (c.tokenTypes ++ c.onlyFollowing).Perm c.symbols := by
  refine (List.perm_ext_iff_of_nodup c.nodup_tokens_following c.nodup_symbols).mpr fun t => ?_
  rw [List.mem_append, tokenTypes, Std.TreeMap.mem_keys, onlyFollowing, List.mem_filter,
    Bool.not_eq_true', ← Bool.not_eq_true, Std.TreeMap.contains_iff_mem]
  constructor
  · rintro (candidate | ⟨member, -⟩)
    · rw [Std.TreeMap.mem_iff_isSome_getElem?] at candidate
      obtain ⟨hint, found⟩ := Option.isSome_iff_exists.mp candidate
      exact mem_symbols.mpr ⟨t, hint, found, .inl rfl⟩
    · exact member
  · intro member
    by_cases candidate : t ∈ c.tokens
    · exact .inl candidate
    · exact .inr ⟨member, candidate⟩

end Candidates

namespace Language

variable {l : Language} {c : Candidates}

def typesOf (l : Language) (proposals : List Proposal) (kind : ProposalKind) :
    List (Option Symbol) :=
  (proposals.filter fun p => p.kind = kind).map fun p => l.grammar.vocabulary.type? p.label

def rulesOf (l : Language) (proposals : List Proposal) : List (Option Int) :=
  (proposals.filter fun p => p.kind = .rule).map fun p =>
    (l.grammar.automaton.ruleByName? p.label).map fun r => (r.index : Int)

theorem proposals_eq (l : Language) (c : Candidates) :
    l.proposals c = c.tokens.toList.map (fun e => tokenProposal l.grammar.vocabulary e.1 e.2) ++
      c.rules.toList.map (fun e => l.ruleProposal e.1 e.2) ++
      c.onlyFollowing.map (followingProposal l.grammar.vocabulary) := rfl

theorem labels_proposals (l : Language) (c : Candidates) :
    (l.proposals c).map Proposal.label = c.tokenTypes.map l.grammar.vocabulary.displayName ++
      c.ruleIndexes.map l.ruleName ++ c.onlyFollowing.map l.grammar.vocabulary.displayName := by
  rw [proposals_eq, List.map_append, List.map_append, List.map_map, List.map_map, List.map_map,
    Candidates.tokenTypes, Candidates.ruleIndexes, ← Std.TreeMap.map_fst_toList_eq_keys,
    ← Std.TreeMap.map_fst_toList_eq_keys, List.map_map, List.map_map]
  rfl

theorem typesOf_token (l : Language) (c : Candidates) :
    l.typesOf (l.proposals c) .token =
      c.tokenTypes.map fun t => l.grammar.vocabulary.type? (l.grammar.vocabulary.displayName t) := by
  rw [Candidates.tokenTypes, ← Std.TreeMap.map_fst_toList_eq_keys, List.map_map, typesOf,
    proposals_eq]
  simp [List.filter_map, Function.comp_def, tokenProposal, ruleProposal, followingProposal]

theorem typesOf_following (l : Language) (c : Candidates) :
    l.typesOf (l.proposals c) .following =
      c.onlyFollowing.map fun t =>
        l.grammar.vocabulary.type? (l.grammar.vocabulary.displayName t) := by
  rw [typesOf, proposals_eq]
  simp [List.filter_map, Function.comp_def, tokenProposal, ruleProposal, followingProposal]

theorem rulesOf_proposals (l : Language) (c : Candidates) :
    l.rulesOf (l.proposals c) = c.ruleIndexes.map fun rule =>
      (l.grammar.automaton.ruleByName? (l.ruleName rule)).map fun r => (r.index : Int) := by
  rw [Candidates.ruleIndexes, ← Std.TreeMap.map_fst_toList_eq_keys, List.map_map, rulesOf,
    proposals_eq]
  simp [List.filter_map, Function.comp_def, tokenProposal, ruleProposal, followingProposal]

theorem Accepted.type?_displayName (h : l.Accepted) {t : Symbol}
    (typed : l.grammar.automaton.HasType t) :
    l.grammar.vocabulary.type? (l.grammar.vocabulary.displayName t) = some t ∧
      kindOf (l.grammar.vocabulary.displayName t) ≠ .rule := by
  obtain ⟨name, text, start, skip, parsed, small, -⟩ := h.parsed
  exact Grammar.type?_displayName parsed small typed.1 typed.2

theorem Accepted.ruleByName?_ruleName (h : l.Accepted) {rule : Int}
    (known : l.grammar.automaton.HasRule rule) :
    (l.grammar.automaton.ruleByName? (l.ruleName rule)).map (fun r => (r.index : Int)) =
      some rule ∧ kindOf (l.ruleName rule) = .rule := by
  obtain ⟨name, text, start, skip, parsed, -, -⟩ := h.parsed
  obtain ⟨r, hr⟩ := known
  obtain ⟨found, index, isRule⟩ := Grammar.ruleByName?_name parsed (rules_of_rule? hr)
  have named : l.ruleName rule = r.name := by simp [ruleName, hr]
  have nonneg : 0 ≤ rule := by
    by_contra negative
    simp [rule?, Int.not_le.mp negative] at hr
  rw [named, found, Option.map_some, index, Int.toNat_of_nonneg nonneg]
  exact ⟨rfl, isRule⟩

/-- Names of different types and rules differ. -/
theorem Accepted.nodup_labels (h : l.Accepted) (within : c.Within l.grammar.automaton) :
    ((l.proposals c).map Proposal.label).Nodup := by
  let shown := l.grammar.vocabulary.displayName
  have typed : ∀ t ∈ c.tokenTypes ++ c.onlyFollowing, l.grammar.automaton.HasType t :=
    fun t member => within.hasType (c.perm_symbols.mem_iff.mp member)
  have known : ∀ rule ∈ c.ruleIndexes, l.grammar.automaton.HasRule rule :=
    fun rule member => within.hasRule member
  have tokens : ((c.tokenTypes ++ c.onlyFollowing).map shown).Nodup := by
    refine c.nodup_tokens_following.map_on fun t ht u hu same => ?_
    have found := (h.type?_displayName (typed t ht)).1
    rw [show l.grammar.vocabulary.displayName t = l.grammar.vocabulary.displayName u from same,
      (h.type?_displayName (typed u hu)).1] at found
    exact (Option.some.inj found).symm
  have rules : (c.ruleIndexes.map l.ruleName).Nodup := by
    have distinct : c.ruleIndexes.Nodup := Std.TreeMap.nodup_keys
    refine distinct.map_on fun rule hr other ho same => ?_
    have found := (h.ruleByName?_ruleName (known rule hr)).1
    rw [same, (h.ruleByName?_ruleName (known other ho)).1] at found
    exact (Option.some.inj found).symm
  -- A type is not named like a rule.
  have apart : ∀ label ∈ (c.tokenTypes ++ c.onlyFollowing).map shown,
      ∀ other ∈ c.ruleIndexes.map l.ruleName, label ≠ other := by
    intro label hl other ho same
    obtain ⟨t, ht, rfl⟩ := List.mem_map.mp hl
    obtain ⟨rule, hr, rfl⟩ := List.mem_map.mp ho
    apply (h.type?_displayName (typed t ht)).2
    exact (congrArg kindOf same).trans (h.ruleByName?_ruleName (known rule hr)).2
  have perm : ((l.proposals c).map Proposal.label).Perm
      ((c.tokenTypes ++ c.onlyFollowing).map shown ++ c.ruleIndexes.map l.ruleName) := by
    rw [labels_proposals, List.map_append, List.append_assoc, List.append_assoc]
    exact List.perm_append_comm.append_left _
  exact perm.nodup_iff.mpr (List.nodup_append.mpr ⟨tokens, rules, apart⟩)

/-- No two proposals of an answer have the same label. The labels of tokens name their types: those of
the candidates, and those of the types that only follow candidates. The labels of rules name the
candidate rules. The types of tokens and of following tokens together are the candidates and what must
follow them, none of them twice. -/
theorem labels_resolve (accepted : l.Accepted) (served : List Inquiry) {text : Bytes} {offset : Int}
    {evaluator : Option Evaluator} {c : Completion}
    (ok : (l.complete (l.cacheAfter served) text offset evaluator).result = .ok c) :
    c.labels.Nodup ∧
      (∀ p ∈ c.proposals, p.kind = .token ∨ p.kind = .rule ∨ p.kind = .following) ∧
      l.typesOf c.proposals .token = c.candidates.tokenTypes.map some ∧
      l.rulesOf c.proposals = c.candidates.ruleIndexes.map some ∧
      ∃ following : List Symbol, l.typesOf c.proposals .following = following.map some ∧
        (c.candidates.tokenTypes ++ following).Perm c.candidates.symbols ∧
        (c.candidates.tokenTypes ++ following).Nodup := by
  have answers := accepted.answers_of_ok (accepted.safe_cacheAfter served) ok
  have within := answers.within
  have proposals : c.proposals = l.proposals c.candidates := by
    obtain ⟨_, _, _, _, -, -, same⟩ := answers.searched
    rw [same]
    rfl
  have typed : ∀ t ∈ c.candidates.symbols,
      l.grammar.vocabulary.type? (l.grammar.vocabulary.displayName t) = some t :=
    fun t member => (accepted.type?_displayName (within.hasType member)).1
  have perm := c.candidates.perm_symbols
  rw [proposals]
  refine ⟨?_, ?_, ?_, ?_, c.candidates.onlyFollowing, ?_, perm, c.candidates.nodup_tokens_following⟩
  · rw [Completion.labels, proposals]
    exact accepted.nodup_labels within
  · simp only [proposals_eq, List.mem_append, List.mem_map]
    rintro p ((⟨e, -, rfl⟩ | ⟨e, -, rfl⟩) | ⟨t, -, rfl⟩)
    · exact .inl rfl
    · exact .inr (.inl rfl)
    · exact .inr (.inr rfl)
  · rw [typesOf_token]
    exact List.map_congr_left fun t member => typed t (perm.subset (List.mem_append_left _ member))
  · rw [rulesOf_proposals]
    exact List.map_congr_left fun rule member =>
      (accepted.ruleByName?_ruleName (within.hasRule member)).1
  · rw [typesOf_following]
    exact List.map_congr_left fun t member => typed t (perm.subset (List.mem_append_right _ member))

/-- A rule to prefer, a literal that is a quote, and a literal that comes first and behind another. -/
def pairs : Definition where
  name := "pairs"
  grammar := "pairs"
  start := "Pair"
  skip := ["BLANK"]
  preferred := ["Digits"]
  extensions := []

def pairsSource : Bytes :=
  "Pair = \"'\" Key \"'\" | \"say\" \"'\" ANY | Digits . Key = ANY . Digits = \"0\" ANY . " ++
    "ANY = \"a\" … \"z\" . BLANK = \" \" ."

/-- Before any token a quote, a literal with two tokens behind it, of which the first is proposed
already, and a rule are proposed. -/
theorem labels_resolve_pairs :
    ∃ l : Language, l.Accepted ∧ ∃ c,
      (l.complete (l.cacheAfter [⟨"'a", 2, some fun _ _ => .error ⟨[], []⟩⟩]) " " 1 none).result = .ok c ∧
      c.labels = (["'''", "'say'", "Digits", "ANY"] : List Bytes) ∧ c.labels.Nodup ∧
      l.typesOf c.proposals .token = [some 3, some 4] ∧ l.rulesOf c.proposals = [some 2] ∧
      ∃ following : List Symbol, l.typesOf c.proposals .following = following.map some ∧
        ([3, 4] ++ following).Perm c.candidates.symbols := by
  have answered : (make pairs pairsSource).toOption.map (fun l =>
      (l.complete (l.cacheAfter [⟨"'a", 2, some fun _ _ => .error ⟨[], []⟩⟩]) " " 1
        none).result.toOption.map fun c =>
          (c.labels, c.candidates.tokenTypes, c.candidates.ruleIndexes)) =
      some (some ((["'''", "'say'", "Digits", "ANY"] : List Bytes), [3, 4], [2])) := by
    decide +kernel
  obtain ⟨l, made, found⟩ := exists_ok_of_toOption answered
  obtain ⟨c, ok, found⟩ := exists_ok_of_toOption found
  simp only [Prod.mk.injEq] at found
  obtain ⟨labels, tokens, rules⟩ := found
  have accepted : l.Accepted := ⟨pairs, pairsSource, made, by decide +kernel⟩
  obtain ⟨nodup, -, named, called, following, types, perm, -⟩ := labels_resolve accepted _ ok
  rw [tokens] at named perm
  rw [rules] at called
  exact ⟨l, accepted, c, ok, labels, nodup, named, called, following, types, perm⟩

end Language

end GrammarCompletion
