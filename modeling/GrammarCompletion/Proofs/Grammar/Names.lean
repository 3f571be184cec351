import GrammarCompletion.Proofs.Ebnf.Declared
import GrammarCompletion.Proofs.Grammar.Literals

/-!
# Names of token types and rules

A token type is shown by the name of its production, and by its quoted text if it has none. Each of
these names is found again: productions have names of their own, a quoted text is no name of a
production, and texts are quoted without loss. So the name of a token type is that of no other type
and of no rule.
-/

namespace GrammarCompletion

open Ebnf

/-! ## Kinds of names -/

namespace Ebnf

/-- A quoted text is not the name of a rule or a token. -/
theorem kindOf_literalName (text : Bytes) : kindOf (Vocabulary.literalName text) = .fragment := by
  have quote : Rune.first Vocabulary.apostrophe (Quoted.escape text ++ [Vocabulary.apostrophe]) =
      .char '\'' := Rune.first_of_utf8EncodeChar _ rfl
  have low : startsUpper (Vocabulary.literalName text) = false := by
    rw [Vocabulary.literalName, List.cons_append, startsUpper, Bytes.firstRune?, quote]
    decide +kernel
  have some : (Vocabulary.literalName text).isEmpty = false := rfl
  simp [kindOf, some, low]

theorem ne_nil_of_kindOf_token {name : Bytes} (h : kindOf name = .token) : name ≠ [] := by
  rintro rfl
  cases h

namespace Source

variable {source : Source} {kind : Kind} {i j : Nat} {p q : Production}

theorem kindOf_of_mem_ofKind (h : p ∈ source.ofKind kind) : kindOf p.name.text = kind := by
  simpa using (List.mem_filter.mp h).2

theorem Declared.nodup_ofKind (h : source.Declared) (kind : Kind) :
    ((source.ofKind kind).map fun p => p.name.text).Nodup :=
  h.nodup.sublist (List.filter_sublist.map _)

/-- Productions of one kind with the same name are the same. -/
theorem Declared.eq_of_name (h : source.Declared) (hp : (source.ofKind kind)[i]? = some p)
    (hq : (source.ofKind kind)[j]? = some q) (same : p.name.text = q.name.text) : i = j := by
  have inside : i < ((source.ofKind kind).map fun p => p.name.text).length := by
    simpa using (List.getElem?_eq_some_iff.mp hp).1
  refine (List.getElem?_inj inside (h.nodup_ofKind kind)).mp ?_
  rw [List.getElem?_map, List.getElem?_map, hp, hq, Option.map_some, Option.map_some, same]

end Source

end Ebnf

/-! ## Lists of names -/

namespace Vocabulary

variable {names : Array Bytes} {name : Bytes} {i : Nat}

theorem typeIn?_of_first (nonempty : name ≠ []) (found : names[i]? = some name)
    (first : ∀ j < i, names[j]? ≠ some name) : typeIn? names name = some (Int64.ofNat i) := by
  have index : names.toList.findIdx? (· == name) = some i := by
    rw [List.findIdx?_eq_some_iff_getElem]
    obtain ⟨inside, same⟩ := Array.getElem?_eq_some_iff.mp found
    refine ⟨by simpa using inside, by simpa using same, fun j earlier => ?_⟩
    have differs := first j earlier
    rw [Array.getElem?_eq_getElem (by omega)] at differs
    simpa using differs
  simp [typeIn?, nonempty, index]

theorem typeIn?_eq_none (absent : name ∉ names) : typeIn? names name = none := by
  unfold typeIn?
  split
  · rfl
  · rw [Option.map_eq_none_iff, List.findIdx?_eq_none_iff]
    intro other member
    have differs : other ≠ name := by
      rintro rfl
      exact absent (Array.mem_toList_iff.mp member)
    simpa using differs

end Vocabulary

/-! ## Token types -/

namespace TokenEntry

def label (e : TokenEntry) : Bytes := if e.name.isEmpty then e.literalName else e.name

end TokenEntry

namespace TokenTable

variable {source : Source} {skip : List Bytes} {table : TokenTable} {i j : Nat} {e d : TokenEntry}

theorem nameIn?_symbolAt (hi : i < table.entries.length)
    (small : table.entries.length + 1 < 2 ^ 63) {names : Array Bytes} {name : Bytes}
    (found : names[i + 1]? = some name) :
    Vocabulary.nameIn? names (symbolAt i) = if name.isEmpty then none else some name := by
  have value := toInt_symbolAt hi small
  have zero : (0 : Symbol).toInt = 0 := by decide
  have positive : ¬ symbolAt i < 0 := by
    rw [Int64.lt_iff_toInt_lt, value, zero]
    omega
  have place : (symbolAt i).toInt.toNat = i + 1 := by omega
  rw [Vocabulary.nameIn?, if_neg positive, place, found]
  cases name <;> rfl

theorem displayName_symbolAt (small : table.entries.length + 1 < 2 ^ 63)
    (found : table.entries[i]? = some e) (named : e.label ≠ []) :
    table.vocabulary.displayName (symbolAt i) = e.label := by
  have hi := (List.getElem?_eq_some_iff.mp found).1
  have first := (symbolAt_bounds hi small).1
  have symbolic : table.vocabulary.symbolicNames[i + 1]? = some e.name := by
    simp [vocabulary, found]
  have quoted : table.vocabulary.literalNames[i + 1]? = some e.literalName := by
    simp [vocabulary, found]
  have notEnd : symbolAt i ≠ Symbol.endOfInput := by
    intro same
    rw [same] at first
    exact absurd first (by decide)
  have notNothing : symbolAt i ≠ Symbol.nothing := by
    intro same
    rw [same] at first
    exact absurd first (by decide)
  unfold TokenEntry.label at named ⊢
  rw [Vocabulary.displayName, if_neg notEnd, if_neg notNothing, nameIn?_symbolAt hi small symbolic,
    nameIn?_symbolAt hi small quoted]
  cases symbol : e.name with
  | cons b rest => rfl
  | nil =>
    rw [symbol] at named
    cases text : e.literalName with
    | cons b rest => rfl
    | nil => exact absurd text named

theorem name_ofProduction_ne_nil {p : Production} (h : (source.ofKind .token)[i]? = some p) :
    p.name.text ≠ [] :=
  ne_nil_of_kindOf_token (Source.kindOf_of_mem_ofKind (List.mem_of_getElem? h))

theorem kindOf_label_ne_rule (found : (ofSource source skip).entries[i]? = some e) :
    kindOf e.label ≠ .rule := by
  rcases cases_of_entry found with ⟨p, hp, rfl⟩ | ⟨k, text, -, -, rfl⟩
  · have label : (TokenEntry.ofProduction skip p).label = p.name.text := by
      simp [TokenEntry.label, TokenEntry.ofProduction, name_ofProduction_ne_nil hp]
    rw [label, Source.kindOf_of_mem_ofKind (List.mem_of_getElem? hp)]
    decide
  · have label : (TokenEntry.ofLiteral text).label = Vocabulary.literalName text := rfl
    rw [label, kindOf_literalName]
    decide

theorem eq_of_name (declared : source.Declared)
    (found : (ofSource source skip).entries[i]? = some e)
    (found' : (ofSource source skip).entries[j]? = some d) (same : e.name = d.name)
    (named : e.name ≠ []) : i = j := by
  rcases cases_of_entry found with ⟨p, hp, rfl⟩ | ⟨k, text, -, -, rfl⟩
  · rcases cases_of_entry found' with ⟨q, hq, rfl⟩ | ⟨k, text, -, -, rfl⟩
    · exact declared.eq_of_name hp hq same
    · exact absurd same named
  · exact absurd rfl named

/-- A loose text is the text of no other entry. -/
theorem eq_of_loose (small : (ofSource source skip).entries.length + 1 < 2 ^ 63) {k : Nat}
    {text : Bytes} (listed : source.looseTexts[k]? = some text)
    (found : (ofSource source skip).entries[j]? = some d) (same : d.literal = some text) :
    j = (source.ofKind .token).length + k := by
  have stands : source.StandsFor (symbolAt j) text :=
    (standsFor_iff skip).mpr ⟨j, d, found, same, rfl⟩
  have here : (source.ofKind .token).length + k < (ofSource source skip).entries.length := by
    have := (List.getElem?_eq_some_iff.mp listed).1
    rw [entries_ofSource, List.length_append, List.length_map, List.length_map]
    omega
  have inside := (List.getElem?_eq_some_iff.mp found).1
  exact symbolAt_inj inside here small (stands.eq_of_loose listed)

theorem type?_label (declared : source.Declared)
    (small : (ofSource source skip).entries.length + 1 < 2 ^ 63)
    (found : (ofSource source skip).entries[i]? = some e) :
    (ofSource source skip).vocabulary.type? e.label = some (symbolAt i) := by
  have names : ∀ j, (ofSource source skip).vocabulary.symbolicNames[j + 1]? =
      (ofSource source skip).entries[j]?.map TokenEntry.name := by
    simp [vocabulary]
  have texts : ∀ j, (ofSource source skip).vocabulary.literalNames[j + 1]? =
      (ofSource source skip).entries[j]?.map TokenEntry.literalName := by
    simp [vocabulary]
  rcases cases_of_entry found with ⟨p, hp, rfl⟩ | ⟨k, text, place, listed, rfl⟩
  · have named := name_ofProduction_ne_nil hp
    have label : (TokenEntry.ofProduction skip p).label = p.name.text := by
      simp [TokenEntry.label, TokenEntry.ofProduction, named]
    have symbolic : Vocabulary.typeIn? (ofSource source skip).vocabulary.symbolicNames p.name.text =
        some (symbolAt i) := by
      apply Vocabulary.typeIn?_of_first named
      · rw [names, found]
        rfl
      · intro j earlier
        cases j with
        | zero => simpa [vocabulary] using named
        | succ j =>
          rw [names]
          intro known
          obtain ⟨d, found', same⟩ := Option.map_eq_some_iff.mp known
          have := eq_of_name declared found found' same.symm named
          omega
    rw [label, Vocabulary.type?, symbolic]
  · have label : (TokenEntry.ofLiteral text).label = Vocabulary.literalName text := rfl
    have symbolic : Vocabulary.typeIn? (ofSource source skip).vocabulary.symbolicNames
        (Vocabulary.literalName text) = none := by
      apply Vocabulary.typeIn?_eq_none
      intro member
      obtain ⟨j, known⟩ := Array.mem_iff_getElem?.mp member
      cases j with
      | zero => simp [vocabulary, Vocabulary.literalName] at known
      | succ j =>
        rw [names] at known
        obtain ⟨d, found', same⟩ := Option.map_eq_some_iff.mp known
        rcases cases_of_entry found' with ⟨q, hq, rfl⟩ | ⟨_, _, -, -, rfl⟩
        · have kind := Source.kindOf_of_mem_ofKind (List.mem_of_getElem? hq)
          have same : q.name.text = Vocabulary.literalName text := same
          rw [same, kindOf_literalName] at kind
          cases kind
        · cases same
    have literal : Vocabulary.typeIn? (ofSource source skip).vocabulary.literalNames
        (Vocabulary.literalName text) = some (symbolAt i) := by
      apply Vocabulary.typeIn?_of_first (by simp [Vocabulary.literalName])
      · rw [texts, found]
        rfl
      · intro j earlier
        cases j with
        | zero => simp [vocabulary, Vocabulary.literalName]
        | succ j =>
          rw [texts]
          intro known
          obtain ⟨d, found', same⟩ := Option.map_eq_some_iff.mp known
          have own : d.literal = some text := by
            rw [← literalText?_literalName, same, Vocabulary.literalText?_literalName]
          have := eq_of_loose small listed found' own
          omega
    rw [label, Vocabulary.type?, symbolic, literal]

/-- The token types are those of the entries. -/
theorem exists_symbolAt (small : table.entries.length + 1 < 2 ^ 63) {t : Symbol}
    (first : Symbol.firstUser ≤ t) (last : t ≤ table.maxSymbol) :
    ∃ i e, table.entries[i]? = some e ∧ t = symbolAt i := by
  have one : Symbol.firstUser.toInt = 1 := by decide
  rw [Int64.le_iff_toInt_le, one] at first
  rw [Int64.le_iff_toInt_le, toInt_maxSymbol small] at last
  have inside : t.toInt.toNat - 1 < table.entries.length := by omega
  refine ⟨t.toInt.toNat - 1, _, List.getElem?_eq_getElem inside, ?_⟩
  rw [← Int64.toInt_inj, toInt_symbolAt inside small]
  omega

end TokenTable

/-! ## Grammars -/

namespace Compile

theorem nodup_ruleProductions {source : Source} (declared : source.Declared) (start : Bytes) :
    ((ruleProductions source start).map fun p => p.name.text).Nodup := by
  have perm : (ruleProductions source start).Perm (source.ofKind .rule) :=
    List.filter_append_perm (fun p : Production => p.name.text == start) (source.ofKind .rule)
  exact (perm.map _).nodup_iff.mpr (declared.nodup_ofKind .rule)

end Compile

namespace Grammar

variable {name text start : Bytes} {skip : List Bytes} {g : Grammar}

theorem declared (h : parse name text start skip = .ok g) : g.source.Declared :=
  declared_of_read (parse_ok h).1

/-- A token type is found again by the name that it is shown by, which is not that of a rule. -/
theorem type?_displayName (h : parse name text start skip = .ok g) (small : text.length < 2 ^ 63)
    {t : Symbol} (first : Symbol.firstUser ≤ t) (last : t ≤ g.automaton.maxSymbol) :
    g.vocabulary.type? (g.vocabulary.displayName t) = some t ∧
      kindOf (g.vocabulary.displayName t) ≠ .rule := by
  have count := length_entries_lt h small
  rw [maxSymbol_eq h small] at last
  obtain ⟨i, e, found, rfl⟩ := TokenTable.exists_symbolAt count first last
  obtain ⟨-, table, -⟩ := parse_ok h
  rw [table] at count found
  have other := TokenTable.kindOf_label_ne_rule found
  have named : e.label ≠ [] := by
    intro empty
    rw [empty] at other
    exact other rfl
  rw [vocabulary, table, TokenTable.displayName_symbolAt count found named]
  exact ⟨TokenTable.type?_label (declared h) count found, other⟩

theorem ruleByName?_name (h : parse name text start skip = .ok g) {i : Nat} {r : Rule}
    (hr : g.automaton.rules[i]? = some r) :
    g.automaton.ruleByName? r.name = some r ∧ r.index = i ∧ kindOf r.name = .rule := by
  obtain ⟨p, hp, rfl⟩ := (filled h).production_of_rule hr
  have distinct := Compile.nodup_ruleProductions (declared h) start
  have isRule := Compile.mem_ruleProductions.mp (List.mem_of_getElem? hp)
  refine ⟨?_, rfl, Source.kindOf_of_mem_ofKind isRule⟩
  rw [Automaton.ruleByName?, List.find?_eq_some_iff_getElem]
  obtain ⟨inside, same⟩ := Array.getElem?_eq_some_iff.mp hr
  refine ⟨by simp, i, by simpa using inside, by simpa using same, fun j earlier => ?_⟩
  obtain ⟨q, hq, other⟩ := (filled h).production_of_rule
    (Array.getElem?_eq_getElem (show j < g.automaton.rules.size by omega))
  rw [Array.getElem_toList, other]
  have differs : q.name.text ≠ p.name.text := by
    intro same
    have inside : j < ((Compile.ruleProductions g.source start).map fun p => p.name.text).length := by
      simpa using (List.getElem?_eq_some_iff.mp hq).1
    have := (List.getElem?_inj inside distinct).mp (show _ = _[i]? by simp [hq, hp, same])
    omega
  simpa [Compile.declared] using differs

end Grammar

end GrammarCompletion
