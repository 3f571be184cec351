import GrammarCompletion.Proofs.Grammar.Rules

/-!
# Compiling preserves the language

A production and its compiled rule stand for the same sequences of token types. Runs are taken
apart into local paths whose calls read what the productions of the called rules generate; the
other way round, what the rules read is closed under the productions, and the language of a
grammar is the least that is.
-/

namespace GrammarCompletion

open Ebnf

namespace Compile

variable {b : Bindings} {a : Automaton} {productions : List Production} {k : Nat}

namespace Filled

theorem rule_of_production (h : Filled b productions k a) {i : Nat} {p : Production}
    (hp : productions[i]? = some p) : a.rules[i]? = some (declared i p.name.text) := by
  simp [h.rules, hp]

theorem production_of_rule (h : Filled b productions k a) {i : Nat} {r : Rule}
    (hr : a.rules[i]? = some r) :
    ∃ p, productions[i]? = some p ∧ r = declared i p.name.text := by
  rw [h.rules] at hr
  obtain ⟨p, hp, rfl⟩ := Option.map_eq_some_iff.mp hr
  exact ⟨p, hp, rfl⟩

theorem lt_of_production {i : Nat} {p : Production} (hp : productions[i]? = some p) :
    i < productions.length := (List.getElem?_eq_some_iff.mp hp).choose

/-- A state is the start or the stop of its rule, or it is neither by its kind. -/
theorem shape_cases (h : Filled b productions k a) {n rule : Nat} {kind : StateKind}
    (hn : a.shape? n = some (kind, rule)) :
    rule < productions.length ∧ (kind = .ruleStart ∧ n = 2 * rule ∨
      kind = .ruleStop ∧ n = 2 * rule + 1 ∨ kind ≠ .ruleStart ∧ kind ≠ .ruleStop) := by
  by_cases hlt : n < 2 * productions.length
  · by_cases heven : n % 2 = 0
    · have hs := h.shape_start (n / 2) (by omega)
      rw [show 2 * (n / 2) = n by omega, hn] at hs
      cases hs
      exact ⟨by omega, .inl ⟨rfl, by omega⟩⟩
    · have hs := h.shape_stop (n / 2) (by omega)
      rw [show 2 * (n / 2) + 1 = n by omega, hn] at hs
      cases hs
      exact ⟨by omega, .inr (.inl ⟨rfl, by omega⟩)⟩
  · obtain ⟨inner, inside⟩ := h.shape_inner n kind rule (Nat.not_lt.mp hlt) hn
    exact ⟨inside, .inr (.inr inner)⟩

theorem eq_of_start (h : Filled b productions k a) {n rule : Nat}
    (hn : a.shape? n = some (.ruleStart, rule)) : n = 2 * rule ∧ rule < productions.length := by
  obtain ⟨inside, ⟨-, place⟩ | ⟨⟨⟩, -⟩ | ⟨other, -⟩⟩ := h.shape_cases hn
  · exact ⟨place, inside⟩
  · exact absurd rfl other

theorem eq_of_stop (h : Filled b productions k a) {n rule : Nat}
    (hn : a.shape? n = some (.ruleStop, rule)) :
    n = 2 * rule + 1 ∧ rule < productions.length := by
  obtain ⟨inside, ⟨⟨⟩, -⟩ | ⟨-, place⟩ | ⟨-, other⟩⟩ := h.shape_cases hn
  · exact ⟨place, inside⟩
  · exact absurd rfl other

theorem staysInRule (h : Filled b productions k a) : a.StaysInRule := by
  intro n s hs t ht
  have shape := Automaton.shape?_of_state hs
  rw [← Automaton.transitionsAt_of_state hs] at ht
  obtain ⟨kind, hnext⟩ := h.stays n s.kind s.rule shape t ht
  obtain ⟨next, hn, -, hrule⟩ := Automaton.state_of_shape? hnext
  exact ⟨next, hn, hrule⟩

theorem stopsAreRuleStops (h : Filled b productions k a) : a.StopsAreRuleStops := by
  intro n
  rw [Automaton.isStop_iff]
  constructor
  · rintro ⟨rule, hn⟩
    obtain ⟨rfl, hlt⟩ := h.eq_of_stop hn
    exact ⟨rule, _, h.rule_of_production (List.getElem?_eq_getElem hlt), rfl⟩
  · rintro ⟨i, r, hr, rfl⟩
    obtain ⟨p, hp, rfl⟩ := h.production_of_rule hr
    exact ⟨i, h.shape_stop i (lt_of_production hp)⟩

theorem plain (h : Filled b productions k a) (n : Nat) :
    ∀ t ∈ a.transitionsAt n, Automaton.IsPlain t := by
  intro t ht
  have he := h.emitted n t ht
  cases t <;> trivial

theorem shape?_of_localPath (h : Filled b productions k a) {calls : Nat → List Symbol → Prop}
    {n m rule : Nat} {w : List Symbol} (path : LocalPath a.transitionsAt calls n w m)
    (hn : ∃ kind, a.shape? n = some (kind, rule)) : ∃ kind, a.shape? m = some (kind, rule) := by
  induction path with
  | refl n => exact hn
  | step ht _ _ ih =>
    obtain ⟨kind, hn⟩ := hn
    exact ih (h.stays _ kind rule hn _ ht)

/-- A local path from the start of a rule to a stop state spells the production of the rule. -/
theorem spellsBody_of_localPath (h : Filled b productions productions.length a)
    {calls : Nat → List Symbol → Prop} {i stop : Nat} {p : Production} {w : List Symbol}
    (hp : productions[i]? = some p) (hstop : a.IsStop stop)
    (path : LocalPath a.transitionsAt calls (2 * i) w stop) :
    SpellsBody b.table (b.words calls) p.body w := by
  have hi := lt_of_production hp
  obtain ⟨rule, hs⟩ := Automaton.isStop_iff.mp hstop
  obtain ⟨kind, hs'⟩ := h.shape?_of_localPath path ⟨.ruleStart, h.shape_start i hi⟩
  cases hs.symm.trans hs'
  obtain ⟨rfl, -⟩ := h.eq_of_stop hs
  exact (h.spells i p hi hp calls w).mp path

theorem path_of_spellsBody (h : Filled b productions productions.length a) {i : Nat}
    {p : Production} {w : List Symbol} (hp : productions[i]? = some p)
    (hw : SpellsBody b.table (b.words a.Spelled) p.body w) :
    Automaton.Path a (fun _ => True) (2 * i) w (2 * i + 1) :=
  Automaton.path_of_localPath ((h.spells i p (lt_of_production hp) hp a.Spelled w).mpr hw)

theorem spelled_iff (h : Filled b productions productions.length a) {i : Nat} {p : Production}
    (hp : productions[i]? = some p) (w : List Symbol) :
    a.Spelled i w ↔ SpellsBody b.table (b.words a.Spelled) p.body w := by
  constructor
  · rintro ⟨r, stop, hr, hstop, path⟩
    cases (h.rule_of_production hp).symm.trans hr
    refine h.spellsBody_of_localPath hp hstop
      (Automaton.localPath_of_path h.plain ?_ path)
    intro rule r stop w hr hstop path
    exact ⟨r, stop, hr, hstop, Automaton.path_of_localPath path⟩
  · intro hw
    have hstop := Automaton.isStop_iff.mpr ⟨i, h.shape_stop i (lt_of_production hp)⟩
    exact ⟨_, 2 * i + 1, h.rule_of_production hp, hstop, h.path_of_spellsBody hp hw⟩

end Filled

/-! ## Names of rules -/

/-- Productions that are left out for their names do not hide one with another name. -/
theorem find?_filter_of_imp {keep : Production → Bool} {name : Bytes}
    (h : ∀ p : Production, p.name.text = name → keep p = true) (source : List Production) :
    (source.filter keep).find? (fun p => p.name.text == name) =
      source.find? fun p => p.name.text == name := by
  rw [List.find?_filter]
  congr 1
  funext p
  by_cases hp : p.name.text = name
  · simp [hp, h p hp]
  · simp [hp]

theorem find?_ruleProductions {source : Source} (start : Bytes) {name : Bytes}
    (hk : kindOf name = .rule) :
    (ruleProductions source start).find? (fun p => p.name.text == name) = source.find? name := by
  have rules : (source.ofKind .rule).find? (fun p => p.name.text == name) = source.find? name :=
    find?_filter_of_imp (fun p hp => by simp [hp, hk]) source
  rw [← rules]
  simp only [ruleProductions, List.find?_append]
  by_cases hs : name = start
  · rw [find?_filter_of_imp (fun p hp => by simp [hp, hs])]
    cases hf : (source.ofKind .rule).find? fun p => p.name.text == name with
    | some p => rfl
    | none =>
      rw [List.find?_eq_none] at hf
      rw [Option.none_or, List.find?_eq_none]
      exact fun p hp => hf p (List.mem_filter.mp hp).1
  · have none : ((source.ofKind .rule).filter (·.name.text == start)).find?
        (fun p => p.name.text == name) = none := by
      rw [List.find?_eq_none]
      intro p hp
      have := (List.mem_filter.mp hp).2
      simp only [beq_iff_eq] at this ⊢
      exact fun hn => hs (hn.symm.trans this)
    rw [none, Option.none_or, find?_filter_of_imp (fun p hp => by simp [hp, hs])]

/-- A rule name is bound to the production that the source has for it. -/
theorem find?_eq_bind_idxOf? {source : Source} {name : Bytes} (start : Bytes) (table : TokenTable)
    (hk : kindOf name = .rule) :
    source.find? name = ((bindings source start table).rules.idxOf? name).bind fun i =>
      (ruleProductions source start)[i]? := by
  rw [← find?_ruleProductions start hk, List.find?_eq_bind_findIdx?_getElem?, bindings,
    List.idxOf?, List.findIdx?_map]
  rfl

/-! ## The language -/

section
variable {source : Source} {start : Bytes} {table : TokenTable}

/-- Paths through a rule read what its production generates. -/
theorem spellsBody_of_path
    (h : Filled (bindings source start table) (ruleProductions source start)
      (ruleProductions source start).length a) {i stop : Nat} {p : Production} {w : List Symbol}
    (hp : (ruleProductions source start)[i]? = some p) (hstop : a.IsStop stop)
    (path : Automaton.Path a (fun _ => True) (2 * i) w stop) :
    SpellsBody table (Generates source table) p.body w := by
  -- A call reads what the production of the called rule generates.
  let calls : Nat → List Symbol → Prop := fun i w =>
    ∃ p, (ruleProductions source start)[i]? = some p ∧
      SpellsBody table (Generates source table) p.body w
  have sub : ∀ name w, kindOf name = .rule → (bindings source start table).words calls name w →
      Generates source table name w := by
    rintro name w hk ⟨i, hi, p, hp, hw⟩
    refine .production ?_ hw
    rw [find?_eq_bind_idxOf? start table hk, hi, Option.bind_some, hp]
  have read : ∀ {i stop : Nat} {p : Production} {w : List Symbol},
      (ruleProductions source start)[i]? = some p → a.IsStop stop →
      LocalPath a.transitionsAt calls (2 * i) w stop →
      SpellsBody table (Generates source table) p.body w :=
    fun hp hstop path => (h.spellsBody_of_localPath hp hstop path).mono sub
  refine read hp hstop (Automaton.localPath_of_path h.plain ?_ path)
  intro rule r stop w hr hstop path
  obtain ⟨q, hq, rfl⟩ := h.production_of_rule hr
  exact ⟨q, hq, read hq hstop path⟩

/-- What a production generates is read on a path through its rule. -/
theorem path_of_spellsBody
    (h : Filled (bindings source start table) (ruleProductions source start)
      (ruleProductions source start).length a) {i : Nat} {p : Production} {w : List Symbol}
    (hp : (ruleProductions source start)[i]? = some p)
    (hw : SpellsBody table (Generates source table) p.body w) :
    Automaton.Path a (fun _ => True) (2 * i) w (2 * i + 1) := by
  have closed : ∀ name p w, source.find? name = some p →
      SpellsBody table (fun name w => kindOf name = .rule →
        (bindings source start table).words a.Spelled name w) p.body w →
      kindOf name = .rule → (bindings source start table).words a.Spelled name w := by
    intro name p w hf hw hk
    rw [find?_eq_bind_idxOf? start table hk] at hf
    obtain ⟨i, hi, hp⟩ := Option.bind_eq_some_iff.mp hf
    exact ⟨i, hi, (h.spelled_iff hp w).mpr (hw.mono fun _ _ hk hw => hw hk)⟩
  exact h.path_of_spellsBody hp (hw.mono fun _ _ hk hw => hw.least closed hk)

end

/-- Every parser rule of a source has a rule of the automaton. The sequences of token types that
its production generates are those that runs from the start to the stop of the rule consume. -/
theorem automaton_preserves_language {source : Source} {start : Bytes} {skip : List Bytes}
    {a : Automaton} (h : automaton source start (TokenTable.ofSource source skip) = .ok a)
    {p : Production} (hp : p ∈ source.ofKind .rule) :
    ∃ (i : Nat) (r : Rule), (ruleProductions source start)[i]? = some p ∧ a.rules[i]? = some r ∧
      r.name = p.name.text ∧ ∀ w,
        SpellsBody (TokenTable.ofSource source skip)
          (Generates source (TokenTable.ofSource source skip)) p.body w ↔
        Automaton.Run a (fun _ => True) ⟨r.start, []⟩ w ⟨r.stop, []⟩ := by
  have filled := filled_of_automaton h
  obtain ⟨i, hi⟩ := List.mem_iff_getElem?.mp (mem_ruleProductions.mpr hp)
  have hr := filled.rule_of_production hi
  refine ⟨i, declared i p.name.text, hi, hr, rfl, fun w => ?_⟩
  rw [Automaton.run_iff_path]
  constructor
  · exact path_of_spellsBody filled hi
  · intro path
    have hstop : a.IsStop (2 * i + 1) :=
      (filled.stopsAreRuleStops _).mpr ⟨i, _, hr, rfl⟩
    exact spellsBody_of_path filled hi hstop path

/-- A rule for any number of one literal. -/
def stars : Production :=
  ⟨.unplaced "Stars", some (.repetition (.literal (.unplaced "*")))⟩

theorem automaton_preserves_language_stars :
    ∃ (a : Automaton) (r : Rule),
      automaton [stars] "Stars" (TokenTable.ofSource [stars] []) = .ok a ∧ r ∈ a.rules ∧
        Automaton.Run a (fun _ => True) ⟨r.start, []⟩ [1, 1] ⟨r.stop, []⟩ := by
  have isRule : stars ∈ Source.ofKind [stars] .rule :=
    List.mem_filter.mpr ⟨List.mem_singleton.mpr rfl, by decide +kernel⟩
  have compiles : (automaton [stars] "Stars" (TokenTable.ofSource [stars] [])).isOk = true := by
    decide +kernel
  cases h : automaton [stars] "Stars" (TokenTable.ofSource [stars] []) with
  | error e => simp [h, Except.isOk, Except.toBool] at compiles
  | ok a =>
    obtain ⟨i, r, -, hr, -, same⟩ := automaton_preserves_language h isRule
    have star : (TokenTable.ofSource [stars] []).literalSymbol? "*" = some 1 := by decide +kernel
    have two : SpellsBody (TokenTable.ofSource [stars] [])
        (Generates [stars] (TokenTable.ofSource [stars] [])) stars.body [1, 1] :=
      .expr (.again (.literal star) (.again (.literal star) (.done _)))
    exact ⟨a, r, rfl, Array.mem_of_getElem? hr, (same [1, 1]).mp two⟩

end Compile

end GrammarCompletion
