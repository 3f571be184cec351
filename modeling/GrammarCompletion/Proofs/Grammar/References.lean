import GrammarCompletion.Proofs.Grammar.Names

/-!
# References to tokens

A parser rule refers to a token by the name of its production or by its text. Each reference becomes
the label of one transition, in the order in which the states of the rule are numbered. Two references
have the same type if they name the same production or text, or if one names the first production that
is the text of the other.
-/

namespace GrammarCompletion

open Ebnf

namespace Ebnf

/-- How a parser rule refers to a token. -/
inductive Reference where
  /-- By the name of its production. -/
  | token (name : Bytes)
  /-- By its text. -/
  | text (text : Bytes)
  deriving DecidableEq

namespace Expr

mutual

def references : Expr → List Reference
  | .literal text => [.text text.text]
  | .name n => if kindOf n.text = .token then [.token n.text] else []
  | .range _ _ => []
  | .sequence items | .alternative items => referencesOfAll items
  | .group body | .option body | .repetition body => body.references

def referencesOfAll : List Expr → List Reference
  | [] => []
  | x :: rest => x.references ++ referencesOfAll rest

end

end Expr

def Production.references (p : Production) : List Reference :=
  (p.body.map Expr.references).getD []

namespace Source

/-- The name of the first token production that is a text alone. -/
def nameOfText? (source : Source) (text : Bytes) : Option Bytes :=
  ((source.ofKind .token).find? fun p => p.text? == some text).map fun p => p.name.text

def SameToken (source : Source) : Reference → Reference → Prop
  | .token name, .token other => name = other
  | .text text, .text other => text = other
  | .token name, .text text => source.nameOfText? text = some name
  | .text text, .token name => source.nameOfText? text = some name

end Source

end Ebnf

namespace TokenTable

def type? (t : TokenTable) : Reference → Option Symbol
  | .token name => t.tokenSymbol? name
  | .text text => t.literalSymbol? text

end TokenTable

/-! ## Labels of rules -/

def Transition.symbol? : Transition → Option Symbol
  | .atom _ symbol => some symbol
  | _ => none

namespace Automaton

def labelsAt (rule : Nat) (s : State) : List Symbol :=
  if s.rule = rule then s.transitions.filterMap Transition.symbol? else []

def labelsOf (a : Automaton) (rule : Nat) : List Symbol := a.states.toList.flatMap (labelsAt rule)

variable {a : Automaton} {i : Nat}

theorem labelsOf_of_unconnected (h : ∀ n, a.transitionsAt n = []) : a.labelsOf i = [] := by
  refine List.flatMap_eq_nil_iff.mpr fun s member => ?_
  obtain ⟨n, hn⟩ := List.mem_iff_getElem?.mp member
  have empty := h n
  rw [transitionsAt_of_state (by simpa using hn)] at empty
  simp [labelsAt, empty]

theorem labelsOf_addState (a : Automaton) (rule : Nat) (kind : StateKind) (i : Nat) :
    (a.addState rule kind).labelsOf i = a.labelsOf i := by
  simp [labelsOf, addState, labelsAt]

theorem labelsOf_widen (a : Automaton) (symbol : Symbol) (i : Nat) :
    (a.widen symbol).labelsOf i = a.labelsOf i := by
  simp [labelsOf]

theorem labelsOf_connect {source : Nat} {t : Transition} (plain : t.symbol? = none) :
    (a.connect source t).labelsOf i = a.labelsOf i := by
  rw [labelsOf, states_connect, Array.toList_modify, labelsOf]
  by_cases inside : source < a.states.toList.length
  · obtain ⟨front, s, back, split, -, modified⟩ := List.exists_of_modify
      (fun s : State => { s with transitions := s.transitions ++ [t] }) inside
    rw [modified, split]
    simp [labelsAt, plain]
  · rw [List.modify_eq_self (Nat.not_lt.mp inside)]

theorem labelsOf_between (a : Automaton) (rule : Nat) (t : Transition) (i : Nat) :
    (((a.addState rule .basic).addState rule .basic).connect a.states.size t).labelsOf i =
      a.labelsOf i ++ if i = rule then t.symbol?.toList else [] := by
  have states : ((a.addState rule .basic).addState rule .basic).states.toList =
      a.states.toList ++ [⟨a.states.size, .basic, rule, []⟩, ⟨a.states.size + 1, .basic, rule, []⟩] := by
    simp [addState]
  rw [labelsOf, states_connect, Array.toList_modify, states, List.modify_eq_take_drop,
    List.take_left' a.states.length_toList, List.drop_left' a.states.length_toList, List.flatMap_append]
  by_cases here : i = rule
  · cases label : t.symbol? <;> simp [labelsOf, labelsAt, here, label]
  · simp [labelsOf, labelsAt, here, Ne.symm here]

end Automaton

/-! ## Labels of compiled expressions -/

namespace Compile

variable {b : Bindings} {a a' a'' : Automaton} {rule : Nat} {p : Part}
  {refs more : List Reference}

/-- The labels of the rule are followed by the types of the references; other rules keep theirs. -/
def Adds (b : Bindings) (rule : Nat) (refs : List Reference) (a a' : Automaton) : Prop :=
  ∀ i, (a'.labelsOf i).map some =
    (a.labelsOf i).map some ++ if i = rule then refs.map b.table.type? else []

namespace Adds

theorem refl (b : Bindings) (rule : Nat) (a : Automaton) : Adds b rule [] a a := by
  intro i
  simp

theorem trans (h : Adds b rule refs a a') (h' : Adds b rule more a' a'') :
    Adds b rule (refs ++ more) a a'' := by
  intro i
  rw [h' i, h i]
  split <;> simp

theorem addState (h : Adds b rule refs a a') (owner : Nat) (kind : StateKind) :
    Adds b rule refs a (a'.addState owner kind) := by
  intro i
  rw [Automaton.labelsOf_addState, h i]

theorem link (h : Adds b rule refs a a') (source target : Nat) :
    Adds b rule refs a (a'.connect source (.epsilon target)) := by
  intro i
  rw [Automaton.labelsOf_connect rfl, h i]

end Adds

theorem between_adds {tr : Nat → Transition} (h : between rule tr a = .ok (p, a'))
    (typed : (tr (a.states.size + 1)).symbol?.toList.map some = refs.map b.table.type?) :
    Adds b rule refs a a' := by
  cases h
  intro i
  have size : (a.addState rule .basic).nextState = a.states.size + 1 := by
    simp [Automaton.nextState]
  rw [size, Automaton.nextState, Automaton.labelsOf_between, List.map_append, ← typed]
  split <;> rfl

theorem literal_adds {text : Located} (hl : b.table.Types [text.text])
    (h : expr b rule (.literal text) a = .ok (p, a')) :
    Adds b rule [.text text.text] a a' := by
  obtain ⟨x, hx⟩ := hl text.text (List.mem_singleton.mpr rfl)
  rw [expr, hx, Option.getD_some] at h
  exact between_adds h (by simp [Transition.symbol?, TokenTable.type?, hx])

theorem name_adds {n : Located} (h : expr b rule (.name n) a = .ok (p, a')) :
    Adds b rule (Expr.name n).references a a' := by
  rw [expr] at h
  rw [Expr.references]
  cases hk : kindOf n.text with
  | fragment => simp only [hk] at h; cases h
  | token =>
    cases hx : b.table.tokenSymbol? n.text with
    | none => simp only [hk, hx] at h; cases h
    | some x =>
      simp only [hk, hx] at h
      rw [if_pos rfl]
      exact between_adds h (by simp [Transition.symbol?, TokenTable.type?, hx])
  | rule =>
    cases hx : b.rules.idxOf? n.text with
    | none => simp only [hk, hx] at h; cases h
    | some callee =>
      simp only [hk, hx] at h
      rw [if_neg (by decide)]
      exact between_adds h rfl

mutual

theorem expr_adds : (e : Expr) → {a a' : Automaton} → {p : Part} →
    b.table.Types e.literals → expr b rule e a = .ok (p, a') → Adds b rule e.references a a'
  | .literal text, _, _, _, hl, h => by
    rw [Expr.references]
    exact literal_adds hl h
  | .name n, _, _, _, _, h => name_adds h
  | .range _ _, _, _, _, _, h => by
    cases h
  | .sequence items, _, _, _, hl, h => by
    rw [expr] at h
    rw [Expr.references]
    exact chain_adds items hl h
  | .alternative items, a, a', p, hl, h => by
    rw [expr] at h
    obtain ⟨start, a₁, hs, h⟩ := bind_ok h
    obtain ⟨rfl, rfl⟩ := newState_ok hs
    obtain ⟨stop, a₂, ht, h⟩ := bind_ok h
    obtain ⟨rfl, rfl⟩ := newState_ok ht
    obtain ⟨_, a₃, hb, h⟩ := bind_ok h
    obtain ⟨rfl, rfl⟩ := pure_ok h
    rw [Expr.references]
    exact (((Adds.refl b rule a).addState rule _).addState rule _).trans (branches_adds items hl hb)
  | .group body, _, _, _, hl, h => by
    rw [expr] at h
    rw [Expr.references]
    exact expr_adds body hl h
  | .option body, a, a', p, hl, h => by
    rw [expr] at h
    obtain ⟨inner, a₁, hb, h⟩ := bind_ok h
    have part := expr_adds body hl hb
    cases h
    rw [Expr.references]
    exact ((((part.addState rule _).addState rule _).link _ _).link _ _).link _ _
  | .repetition body, a, a', p, hl, h => by
    rw [expr] at h
    obtain ⟨entry, a₁, h₁, h⟩ := bind_ok h
    obtain ⟨rfl, rfl⟩ := newState_ok h₁
    obtain ⟨blockStart, a₂, h₂, h⟩ := bind_ok h
    obtain ⟨rfl, rfl⟩ := newState_ok h₂
    obtain ⟨blockEnd, a₃, h₃, h⟩ := bind_ok h
    obtain ⟨rfl, rfl⟩ := newState_ok h₃
    obtain ⟨loopBack, a₄, h₄, h⟩ := bind_ok h
    obtain ⟨rfl, rfl⟩ := newState_ok h₄
    obtain ⟨loopEnd, a₅, h₅, h⟩ := bind_ok h
    obtain ⟨rfl, rfl⟩ := newState_ok h₅
    obtain ⟨inner, a₆, hb, h⟩ := bind_ok h
    have front := (((((Adds.refl b rule a).addState rule .starLoopEntry).addState rule
      .starBlockStart).addState rule .blockEnd).addState rule .starLoopBack).addState rule .loopEnd
    have part := front.trans (expr_adds body hl hb)
    cases h
    rw [Expr.references]
    exact (((((part.link _ _).link _ _).link _ _).link _ _).link _ _).link _ _

theorem chain_adds : (items : List Expr) → {a a' : Automaton} → {before : Option Part} → {p : Part} →
    b.table.Types (Expr.literalsOfAll items) → chain b rule before items a = .ok (p, a') →
    Adds b rule (Expr.referencesOfAll items) a a'
  | [], a, _, none, _, _, h => by
    rw [chain] at h
    cases h
    rw [Expr.referencesOfAll]
    exact (Adds.refl b rule a).addState rule .basic
  | [], a, _, some _, _, _, h => by
    rw [chain] at h
    obtain ⟨rfl, rfl⟩ := pure_ok h
    rw [Expr.referencesOfAll]
    exact Adds.refl b rule _
  | x :: rest, _, _, none, _, hl, h => by
    rw [chain] at h
    obtain ⟨part, a₁, hx, h⟩ := bind_ok h
    rw [Expr.literalsOfAll, TokenTable.types_append] at hl
    rw [Expr.referencesOfAll]
    exact (expr_adds x hl.1 hx).trans (chain_adds rest hl.2 h)
  | x :: rest, _, _, some before, _, hl, h => by
    rw [chain] at h
    obtain ⟨part, a₁, hx, h⟩ := bind_ok h
    obtain ⟨_, a₂, hc, h⟩ := bind_ok h
    obtain rfl := connect_ok hc
    rw [Expr.literalsOfAll, TokenTable.types_append] at hl
    rw [Expr.referencesOfAll]
    exact ((expr_adds x hl.1 hx).link _ _).trans (chain_adds rest hl.2 h)

theorem branches_adds : (items : List Expr) → {a a' : Automaton} → {start stop : Nat} → {u : Unit} →
    b.table.Types (Expr.literalsOfAll items) → branches b rule start stop items a = .ok (u, a') →
    Adds b rule (Expr.referencesOfAll items) a a'
  | [], _, _, _, _, _, _, h => by
    rw [branches] at h
    obtain ⟨-, rfl⟩ := pure_ok h
    rw [Expr.referencesOfAll]
    exact Adds.refl b rule _
  | x :: rest, _, _, _, _, _, hl, h => by
    rw [branches] at h
    obtain ⟨part, a₁, hx, h⟩ := bind_ok h
    obtain ⟨_, a₂, hs, h⟩ := bind_ok h
    obtain rfl := connect_ok hs
    obtain ⟨_, a₃, ht, h⟩ := bind_ok h
    obtain rfl := connect_ok ht
    rw [Expr.literalsOfAll, TokenTable.types_append] at hl
    rw [Expr.referencesOfAll]
    exact (((expr_adds x hl.1 hx).link _ _).link _ _).trans (branches_adds rest hl.2 h)

end

/-! ## Labels of rules -/

theorem rule_adds {index : Nat} {p : Production} {u : Unit} (hl : b.table.Types (bodyLiterals p))
    (h : Compile.rule b index p a = .ok (u, a')) : Adds b index p.references a a' := by
  obtain ⟨part, a₁, hb, h⟩ := bind_ok h
  have inner : Adds b index p.references a a₁ := by
    unfold bodyLiterals at hl
    unfold Production.references
    cases he : p.body with
    | none =>
      rw [he] at hb
      cases hb
      exact (Adds.refl b index a).addState index .basic
    | some e =>
      rw [he] at hb hl
      exact expr_adds e hl hb
  obtain ⟨_, a₂, hs, h⟩ := bind_ok h
  obtain rfl := connect_ok hs
  obtain rfl := connect_ok h
  exact (inner.link _ _).link _ _

/-- Each rule adds its references, and the rules before keep theirs. -/
theorem labelsOf_rulesFrom : ∀ {rest : List Production} {k : Nat} {a : Automaton},
    (∀ p ∈ rest, b.table.Types (bodyLiterals p)) → rulesFrom b k rest a = .ok a' →
    (∀ i, i < k → (a'.labelsOf i).map some = (a.labelsOf i).map some) ∧
      ∀ i p, rest[i]? = some p → (a'.labelsOf (k + i)).map some =
        (a.labelsOf (k + i)).map some ++ p.references.map b.table.type? := by
  intro rest
  induction rest with
  | nil =>
    intro k a hl h
    cases h
    exact ⟨fun _ _ => rfl, nofun⟩
  | cons p rest ih =>
    intro k a hl h
    rw [List.forall_mem_cons] at hl
    rw [rulesFrom] at h
    cases hrule : Compile.rule b k p a with
    | error fault => simp [hrule] at h
    | ok found =>
      obtain ⟨u, a₁⟩ := found
      simp only [hrule] at h
      have added := rule_adds hl.1 hrule
      obtain ⟨before, behind⟩ := ih hl.2 h
      constructor
      · intro i hi
        rw [before i (by omega), added i, if_neg (by omega), List.append_nil]
      · intro i q hq
        cases i with
        | zero =>
          cases hq
          rw [Nat.add_zero, before k (by omega), added k, if_pos rfl]
        | succ i =>
          have later := behind i q (by simpa using hq)
          rw [show k + (i + 1) = k + 1 + i by omega, later, added, if_neg (by omega), List.append_nil]

/-- The labels of a rule are the types of the references of its production. -/
theorem labelsOf_automaton {source : Source} {start : Bytes} {skip : List Bytes} {a : Automaton}
    (h : automaton source start (TokenTable.ofSource source skip) = .ok a) {i : Nat} {p : Production}
    (hp : (ruleProductions source start)[i]? = some p) :
    (a.labelsOf i).map some = p.references.map (TokenTable.ofSource source skip).type? := by
  simp only [automaton, bind, Except.bind] at h
  split at h
  case h_1 => cases h
  case h_2 a₁ hr =>
    cases h
    have types : ∀ p ∈ ruleProductions source start,
        (TokenTable.ofSource source skip).Types (bodyLiterals p) :=
      fun p hp => TokenTable.ofSource_types skip (mem_ruleProductions.mp hp)
    have added := (labelsOf_rulesFrom types hr).2 i p hp
    have unconnected := (declared_empty.addRules
      ((ruleProductions source start).map fun p => p.name.text)).unconnected
    rw [Automaton.labelsOf_of_unconnected unconnected, Nat.zero_add] at added
    rw [Automaton.labelsOf_widen, added]
    rfl

end Compile

/-! ## References to one token -/

theorem Ebnf.Source.nameOfText?_eq_some_iff {source : Source} {text name : Bytes} :
    source.nameOfText? text = some name ↔
      ∃ (i : Nat) (p : Production), (source.ofKind .token)[i]? = some p ∧ p.text? = some text ∧
        p.name.text = name ∧ ∀ (j : Nat) (q : Production), j < i →
          (source.ofKind .token)[j]? = some q → q.text? ≠ some text := by
  unfold nameOfText?
  rw [Option.map_eq_some_iff]
  constructor
  · rintro ⟨p, found, named⟩
    obtain ⟨whole, i, inside, rfl, earlier⟩ := List.find?_eq_some_iff_getElem.mp found
    refine ⟨i, _, List.getElem?_eq_getElem inside, by simpa using whole, named, ?_⟩
    intro j q hj hq
    obtain ⟨_, rfl⟩ := List.getElem?_eq_some_iff.mp hq
    simpa using earlier j hj
  · rintro ⟨i, p, hp, whole, named, earlier⟩
    obtain ⟨inside, rfl⟩ := List.getElem?_eq_some_iff.mp hp
    refine ⟨_, List.find?_eq_some_iff_getElem.mpr ⟨by simpa using whole, i, inside, rfl, ?_⟩, named⟩
    intro j hj
    simpa using earlier j _ hj (List.getElem?_eq_getElem (by omega))

namespace TokenTable

variable {source : Source} {skip : List Bytes} {table : TokenTable} {name text : Bytes} {x y : Symbol}

theorem entry_of_tokenSymbol? (h : table.tokenSymbol? name = some x) :
    ∃ i e, table.entries[i]? = some e ∧ e.name = name ∧ name ≠ [] ∧ x = symbolAt i := by
  obtain ⟨i, hi, rfl⟩ := Option.map_eq_some_iff.mp h
  obtain ⟨inside, named, -⟩ := List.findIdx?_eq_some_iff_getElem.mp hi
  rw [Bool.and_eq_true, Bool.not_eq_true', List.isEmpty_eq_false_iff, beq_iff_eq] at named
  exact ⟨i, _, List.getElem?_eq_getElem inside, named.2, named.2 ▸ named.1, rfl⟩

theorem entry_of_literalSymbol? (h : table.literalSymbol? text = some x) :
    ∃ i e, table.entries[i]? = some e ∧ e.literal = some text ∧ x = symbolAt i ∧
      ∀ j d, j < i → table.entries[j]? = some d → d.literal ≠ some text := by
  obtain ⟨i, hi, rfl⟩ := Option.map_eq_some_iff.mp h
  obtain ⟨inside, whole, earlier⟩ := List.findIdx?_eq_some_iff_getElem.mp hi
  refine ⟨i, _, List.getElem?_eq_getElem inside, by simpa using whole, rfl, ?_⟩
  intro j d hj hd
  obtain ⟨_, rfl⟩ := List.getElem?_eq_some_iff.mp hd
  simpa using earlier j hj

/-- A name and a text have the same type if the name is that of the first production with the text. -/
theorem tokenSymbol?_eq_literalSymbol?_iff (declared : source.Declared)
    (small : (ofSource source skip).entries.length + 1 < 2 ^ 63)
    (named : (ofSource source skip).tokenSymbol? name = some x)
    (written : (ofSource source skip).literalSymbol? text = some y) :
    x = y ↔ source.nameOfText? text = some name := by
  obtain ⟨i, e, he, rfl, nonempty, rfl⟩ := entry_of_tokenSymbol? named
  obtain ⟨j, d, hd, whole, rfl, first⟩ := entry_of_literalSymbol? written
  have hi := (List.getElem?_eq_some_iff.mp he).1
  have hj := (List.getElem?_eq_some_iff.mp hd).1
  rw [Source.nameOfText?_eq_some_iff]
  constructor
  · intro same
    obtain rfl := symbolAt_inj hi hj small same
    cases he.symm.trans hd
    -- The entry has a name, so that it comes from a production.
    rcases cases_of_entry he with ⟨p, hp, rfl⟩ | ⟨_, _, -, -, rfl⟩
    · refine ⟨i, p, hp, whole, rfl, fun k q hk hq => ?_⟩
      exact first k _ hk (entry_of_production skip hq)
    · exact absurd rfl nonempty
  · rintro ⟨k, p, hp, text, same, earlier⟩
    have hk := entry_of_production skip hp
    obtain rfl := eq_of_name declared he hk same.symm nonempty
    suffices j = i by rw [this]
    rcases Nat.lt_trichotomy j i with before | equal | behind
    · have inside := (List.getElem?_eq_some_iff.mp hp).1
      have hq := List.getElem?_eq_getElem (Nat.lt_trans before inside)
      cases (entry_of_production skip hq).symm.trans hd
      exact absurd whole (earlier j _ before hq)
    · exact equal
    · exact absurd text (first i _ behind hk)

/-- References that have types have the same one if they are to the same token. -/
theorem type?_eq_iff (declared : source.Declared)
    (small : (ofSource source skip).entries.length + 1 < 2 ^ 63) {r s : Reference}
    (hr : (ofSource source skip).type? r = some x) (hs : (ofSource source skip).type? s = some y) :
    x = y ↔ source.SameToken r s := by
  cases r with
  | token name =>
    cases s with
    | text text => exact tokenSymbol?_eq_literalSymbol?_iff declared small hr hs
    | token other =>
      constructor
      · rintro rfl
        obtain ⟨i, e, he, rfl, -, rfl⟩ := entry_of_tokenSymbol? hr
        obtain ⟨j, d, hd, rfl, -, same⟩ := entry_of_tokenSymbol? hs
        obtain rfl := symbolAt_inj (List.getElem?_eq_some_iff.mp he).1
          (List.getElem?_eq_some_iff.mp hd).1 small same
        cases he.symm.trans hd
        rfl
      · rintro ⟨⟩
        exact Option.some.inj (hr.symm.trans hs)
  | text text =>
    cases s with
    | token name =>
      rw [eq_comm]
      exact tokenSymbol?_eq_literalSymbol?_iff declared small hs hr
    | text other =>
      constructor
      · rintro rfl
        obtain ⟨i, e, he, whole, rfl, -⟩ := entry_of_literalSymbol? hr
        obtain ⟨j, d, hd, whole', same, -⟩ := entry_of_literalSymbol? hs
        obtain rfl := symbolAt_inj (List.getElem?_eq_some_iff.mp he).1
          (List.getElem?_eq_some_iff.mp hd).1 small same
        cases he.symm.trans hd
        exact Option.some.inj (whole.symm.trans whole')
      · rintro ⟨⟩
        exact Option.some.inj (hr.symm.trans hs)

end TokenTable

end GrammarCompletion
