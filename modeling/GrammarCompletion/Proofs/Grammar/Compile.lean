import GrammarCompletion.Proofs.Grammar.Fragment

/-!
# Compiled rules spell their productions

Each expression becomes a part that spells what the expression stands for, by induction on the
expression. The bodies of the rules are linked to the states of their declarations, one rule after
the other, and no rule touches the states of another.
-/

namespace GrammarCompletion

open Ebnf

namespace TokenTable

def Types (table : TokenTable) (texts : List Bytes) : Prop :=
  ∀ text ∈ texts, ∃ x, table.literalSymbol? text = some x

theorem types_append {table : TokenTable} {texts more : List Bytes} :
    table.Types (texts ++ more) ↔ table.Types texts ∧ table.Types more := by
  simp only [Types, List.mem_append, or_imp, forall_and]

theorem symbolAt_of_literalSymbol? {table : TokenTable} {text : Bytes} {x : Symbol}
    (h : table.literalSymbol? text = some x) :
    ∃ i, i < table.entries.length ∧ x = symbolAt i := by
  obtain ⟨i, hi, rfl⟩ := Option.map_eq_some_iff.mp h
  exact ⟨i, (List.findIdx?_eq_some_iff_findIdx_eq.mp hi).1, rfl⟩

theorem symbolAt_of_tokenSymbol? {table : TokenTable} {name : Bytes} {x : Symbol}
    (h : table.tokenSymbol? name = some x) :
    ∃ i, i < table.entries.length ∧ x = symbolAt i := by
  obtain ⟨i, hi, rfl⟩ := Option.map_eq_some_iff.mp h
  exact ⟨i, (List.findIdx?_eq_some_iff_findIdx_eq.mp hi).1, rfl⟩

end TokenTable

namespace Compile

variable {b : Bindings} {a a' : Automaton} {rule : Nat} {p : Part}

theorem reads_atom {calls : Nat → List Symbol → Prop} {target : Nat} {x : Symbol}
    {w : List Symbol} : (Transition.atom target x).Reads calls w ↔ w = [x] := by
  constructor
  · rintro ⟨⟩
    rfl
  · rintro rfl
    exact .atom target x

theorem reads_call {calls : Nat → List Symbol → Prop} {callee follow : Nat} {w : List Symbol} :
    (Transition.call callee follow).Reads calls w ↔ calls callee w := by
  constructor
  · rintro ⟨⟩
    assumption
  · exact .call follow

theorem repeated_iff {body : Expr} {rules : Bytes → List Symbol → Prop} {w : List Symbol} :
    Repeated (Spells b.table rules body) w ↔ Spells b.table rules (.repetition body) w := by
  constructor
  · intro h
    induction h with
    | done => exact .done body
    | again head _ ih => exact .again head ih
  · intro h
    generalize he : Expr.repetition body = e at h
    induction h with
    | done => exact .done
    | again head _ _ ih =>
      cases he
      exact .again head (ih rfl)
    | literal | token | rule | nil | cons | alternative | group | absent | present => cases he

theorem between_fragment {tr : Nat → Transition} (ht : ∀ n, (tr n).next = n)
    (he : ∀ n, b.Emits (tr n)) (h : between rule tr a = .ok (p, a')) :
    Fragment b a a' rule p (fun calls w => (tr (a.states.size + 1)).Reads calls w) := by
  cases h
  simpa [Automaton.nextState] using Fragment.between b a rule (ht (a.states.size + 1)) (he _)

theorem passage_fragment (h : passage rule a = .ok (p, a')) :
    Fragment b a a' rule p (fun _ w => w = []) := by
  cases h
  exact Fragment.passage b a rule

theorem literal_fragment {text : Located} (hl : b.table.Types [text.text])
    (h : expr b rule (.literal text) a = .ok (p, a')) :
    Fragment b a a' rule p (fun calls w => Spells b.table (b.words calls) (.literal text) w) := by
  obtain ⟨x, hx⟩ := hl text.text (List.mem_singleton.mpr rfl)
  rw [expr, hx, Option.getD_some] at h
  have emits : ∀ n, b.Emits (.atom n x) := fun _ => TokenTable.symbolAt_of_literalSymbol? hx
  refine (between_fragment (fun _ => rfl) emits h).congr fun calls w => reads_atom.trans ?_
  constructor
  · rintro rfl
    exact .literal hx
  · rintro ⟨h'⟩
    cases hx.symm.trans h'
    rfl

theorem name_fragment {n : Located} (h : expr b rule (.name n) a = .ok (p, a')) :
    Fragment b a a' rule p (fun calls w => Spells b.table (b.words calls) (.name n) w) := by
  rw [expr] at h
  cases hk : kindOf n.text with
  | fragment => simp only [hk] at h; cases h
  | token =>
    cases hx : b.table.tokenSymbol? n.text with
    | none => simp only [hk, hx] at h; cases h
    | some x =>
      simp only [hk, hx] at h
      have emits : ∀ n, b.Emits (.atom n x) := fun _ => TokenTable.symbolAt_of_tokenSymbol? hx
      refine (between_fragment (fun _ => rfl) emits h).congr fun calls w => reads_atom.trans ?_
      constructor
      · rintro rfl
        exact .token hk hx
      · rintro (_ | ⟨_, h'⟩ | ⟨hk', _⟩)
        · cases hx.symm.trans h'
          rfl
        · cases hk.symm.trans hk'
  | rule =>
    cases hx : b.rules.idxOf? n.text with
    | none => simp only [hk, hx] at h; cases h
    | some callee =>
      simp only [hk, hx] at h
      have emits : ∀ n, b.Emits (.call callee n) := fun _ =>
        (List.findIdx?_eq_some_iff_findIdx_eq.mp hx).1
      refine (between_fragment (fun _ => rfl) emits h).congr fun calls w => reads_call.trans ?_
      constructor
      · exact fun hc => .rule hk ⟨callee, hx, hc⟩
      · rintro (_ | ⟨hk', _⟩ | ⟨_, i, hi, hc⟩)
        · cases hk.symm.trans hk'
        · cases hx.symm.trans hi
          exact hc

mutual

/-- An expression becomes a part that spells what the expression stands for. -/
theorem expr_fragment : (e : Expr) → {a a' : Automaton} → {p : Part} →
    b.table.Types e.literals → expr b rule e a = .ok (p, a') →
    Fragment b a a' rule p (fun calls w => Spells b.table (b.words calls) e w)
  | .literal text, _, _, _, hl, h => literal_fragment hl h
  | .name n, _, _, _, _, h => name_fragment h
  | .range _ _, _, _, _, _, h => by
    cases h
  | .sequence items, _, _, _, hl, h => by
    rw [expr] at h
    exact chain_fragment items hl h
  | .alternative items, a, a', p, hl, h => by
    rw [expr] at h
    obtain ⟨start, a₁, hs, h⟩ := bind_ok h
    obtain ⟨rfl, rfl⟩ := newState_ok hs
    obtain ⟨stop, a₂, ht, h⟩ := bind_ok h
    obtain ⟨rfl, rfl⟩ := newState_ok ht
    obtain ⟨_, a₃, hb, h⟩ := bind_ok h
    obtain ⟨rfl, rfl⟩ := pure_ok h
    have none := Choice.none b a rule
    rw [Automaton.size_addState] at hb ⊢
    refine (branches_choice items hl none hb).toFragment.congr fun calls w => ?_
    simp only [false_or, spells_alternative]
  | .group body, _, _, _, hl, h => by
    rw [expr] at h
    exact (expr_fragment body hl h).congr fun _ _ => spells_group.symm
  | .option body, a, a', p, hl, h => by
    rw [expr] at h
    obtain ⟨inner, a₁, hb, h⟩ := bind_ok h
    have part := expr_fragment body hl hb
    obtain ⟨start, a₂, hs, h⟩ := bind_ok h
    obtain ⟨rfl, rfl⟩ := newState_ok hs
    obtain ⟨stop, a₃, ht, h⟩ := bind_ok h
    obtain ⟨rfl, rfl⟩ := newState_ok ht
    cases h
    rw [Automaton.size_addState]
    exact part.option.congr fun _ _ => spells_option.symm
  | .repetition body, a, a', p, hl, h => by
    rw [expr] at h
    obtain ⟨entry, a₁, h₁, h⟩ := bind_ok h
    obtain ⟨rfl, rfl⟩ := newState_ok h₁
    obtain ⟨blockStart, a₂, h₂, h⟩ := bind_ok h
    obtain ⟨rfl, rfl⟩ := newState_ok h₂
    obtain ⟨blockEnd, a₃, h₃, h⟩ := bind_ok h
    obtain ⟨rfl, rfl⟩ := newState_ok h₃
    obtain ⟨loopBack, a₄, h₄, h⟩ := bind_ok h
    obtain ⟨rfl, rfl⟩ := newState_ok h₄
    obtain ⟨loopEnd, a₅, h₅, h⟩ := bind_ok h
    obtain ⟨rfl, rfl⟩ := newState_ok h₅
    obtain ⟨inner, a₆, hb, h⟩ := bind_ok h
    have part := expr_fragment body hl hb
    cases h
    simp only [Automaton.size_addState]
    exact part.repetition.congr fun _ _ => repeated_iff

theorem chain_fragment : (items : List Expr) → {a a' : Automaton} → {p : Part} →
    b.table.Types (Expr.literalsOfAll items) → chain b rule none items a = .ok (p, a') →
    Fragment b a a' rule p (fun calls w => Spells b.table (b.words calls) (.sequence items) w)
  | [], _, _, _, _, h => by
    rw [chain] at h
    exact (passage_fragment h).congr fun _ _ => spells_sequence_nil.symm
  | x :: rest, a, a', p, hl, h => by
    rw [chain] at h
    obtain ⟨part, a₁, hx, h⟩ := bind_ok h
    rw [Expr.literalsOfAll, TokenTable.types_append] at hl
    refine (chain_behind rest hl.2 (expr_fragment x hl.1 hx) h).congr fun _ _ => ?_
    exact spells_sequence_cons.symm

theorem chain_behind : (items : List Expr) → {a a' a'' : Automaton} → {before p : Part} →
    {language : (Nat → List Symbol → Prop) → List Symbol → Prop} →
    b.table.Types (Expr.literalsOfAll items) → Fragment b a a' rule before language →
    chain b rule (some before) items a' = .ok (p, a'') →
    Fragment b a a'' rule p (fun calls w => ∃ u v, w = u ++ v ∧ language calls u ∧
      Spells b.table (b.words calls) (.sequence items) v)
  | [], _, _, _, _, _, _, _, first, h => by
    rw [chain] at h
    obtain ⟨rfl, rfl⟩ := pure_ok h
    refine first.congr fun calls w => ?_
    simp [spells_sequence_nil]
  | x :: rest, _, _, _, _, _, _, hl, first, h => by
    rw [chain] at h
    obtain ⟨part, a₁, hx, h⟩ := bind_ok h
    obtain ⟨_, a₂, hc, h⟩ := bind_ok h
    obtain rfl := connect_ok hc
    rw [Expr.literalsOfAll, TokenTable.types_append] at hl
    have both := first.append (expr_fragment x hl.1 hx)
    refine (chain_behind rest hl.2 both h).congr fun calls w => ?_
    simp only [spells_sequence_cons]
    constructor
    · rintro ⟨_, z, rfl, ⟨u, v, rfl, hu, hv⟩, hz⟩
      exact ⟨u, v ++ z, List.append_assoc .., hu, v, z, rfl, hv, hz⟩
    · rintro ⟨u, _, rfl, hu, v, z, rfl, hv, hz⟩
      exact ⟨u ++ v, z, (List.append_assoc ..).symm, ⟨u, v, rfl, hu, hv⟩, hz⟩

theorem branches_choice : (items : List Expr) → {a a' a'' : Automaton} → {start stop : Nat} →
    {language : (Nat → List Symbol → Prop) → List Symbol → Prop} → {u : Unit} →
    b.table.Types (Expr.literalsOfAll items) → Choice b a a' rule start stop language →
    branches b rule start stop items a' = .ok (u, a'') →
    Choice b a a'' rule start stop (fun calls w => language calls w ∨
      ∃ x ∈ items, Spells b.table (b.words calls) x w)
  | [], _, _, _, _, _, _, _, _, choice, h => by
    rw [branches] at h
    obtain ⟨-, rfl⟩ := pure_ok h
    refine choice.congr fun calls w => ?_
    simp
  | x :: rest, _, _, _, _, _, _, _, hl, choice, h => by
    rw [branches] at h
    obtain ⟨part, a₁, hx, h⟩ := bind_ok h
    obtain ⟨_, a₂, hs, h⟩ := bind_ok h
    obtain rfl := connect_ok hs
    obtain ⟨_, a₃, ht, h⟩ := bind_ok h
    obtain rfl := connect_ok ht
    rw [Expr.literalsOfAll, TokenTable.types_append] at hl
    have more := choice.add (expr_fragment x hl.1 hx)
    refine (branches_choice rest hl.2 more h).congr fun calls w => ?_
    simp only [List.mem_cons, exists_eq_or_imp, or_assoc]

end

end Compile

end GrammarCompletion
