import GrammarCompletion.Proofs.Grammar.Names

/-!
# Rules that cannot be compiled

A parser rule is made of texts and of names of tokens and rules. The name of a fragment and a character
range have no place in it, and compiling fails at the first of them. The check of the names, the
collection of the texts and the building of states go through an expression each on its own. Building
meets no name that has not been checked and no text that has not been collected, so nothing else fails.
-/

namespace GrammarCompletion

open Ebnf

/-! ## What stands in an expression -/

namespace Ebnf

namespace Expr

/-- An expression is another one or stands in it, at any depth. -/
inductive Occurs (x : Expr) : Expr → Prop
  | self : Occurs x x
  | sequence {items : List Expr} {y : Expr} (member : y ∈ items) (h : Occurs x y) :
    Occurs x (.sequence items)
  | alternative {items : List Expr} {y : Expr} (member : y ∈ items) (h : Occurs x y) :
    Occurs x (.alternative items)
  | group {body : Expr} (h : Occurs x body) : Occurs x (.group body)
  | option {body : Expr} (h : Occurs x body) : Occurs x (.option body)
  | repetition {body : Expr} (h : Occurs x body) : Occurs x (.repetition body)

mutual

def leaves : Expr → List Expr
  | .literal text => [.literal text]
  | .range first last => [.range first last]
  | .name n => [.name n]
  | .sequence items | .alternative items => leavesOfAll items
  | .group body | .option body | .repetition body => body.leaves

def leavesOfAll : List Expr → List Expr
  | [] => []
  | x :: rest => x.leaves ++ leavesOfAll rest

end

def text? : Expr → Option Bytes
  | .literal text => some text.text
  | _ => none

def fault? : Expr → Option CompileFault
  | .name n => if kindOf n.text = .fragment then some (.fragment n.text) else none
  | .range _ _ => some .range
  | _ => none

theorem leavesOfAll_eq (items : List Expr) : leavesOfAll items = items.flatMap leaves := by
  induction items with
  | nil => rw [leavesOfAll, List.flatMap_nil]
  | cons x rest ih => rw [leavesOfAll, ih, List.flatMap_cons]

mutual

theorem occurs_of_mem_leaves : (e : Expr) → {x : Expr} → x ∈ e.leaves → x.Occurs e
  | .literal _, _, h | .range _ _, _, h | .name _, _, h => by
    rw [leaves, List.mem_singleton] at h
    rw [h]
    exact .self
  | .sequence items, x, h => by
    rw [leaves] at h
    obtain ⟨y, member, occurs⟩ := occurs_of_mem_leavesOfAll items h
    exact .sequence member occurs
  | .alternative items, x, h => by
    rw [leaves] at h
    obtain ⟨y, member, occurs⟩ := occurs_of_mem_leavesOfAll items h
    exact .alternative member occurs
  | .group body, _, h => by
    rw [leaves] at h
    exact .group (occurs_of_mem_leaves body h)
  | .option body, _, h => by
    rw [leaves] at h
    exact .option (occurs_of_mem_leaves body h)
  | .repetition body, _, h => by
    rw [leaves] at h
    exact .repetition (occurs_of_mem_leaves body h)

theorem occurs_of_mem_leavesOfAll : (items : List Expr) → {x : Expr} → x ∈ leavesOfAll items →
    ∃ y ∈ items, x.Occurs y
  | [], _, h => by
    rw [leavesOfAll] at h
    cases h
  | y :: rest, _, h => by
    rw [leavesOfAll, List.mem_append] at h
    cases h with
    | inl first => exact ⟨y, List.mem_cons_self, occurs_of_mem_leaves y first⟩
    | inr others =>
      obtain ⟨z, member, occurs⟩ := occurs_of_mem_leavesOfAll rest others
      exact ⟨z, List.mem_cons_of_mem y member, occurs⟩

end

/-- A leaf that stands in an expression at any depth is one of its leaves. -/
theorem Occurs.mem_leaves {x e : Expr} (h : x.Occurs e) (leaf : x.leaves = [x]) : x ∈ e.leaves := by
  induction h with
  | self =>
    rw [leaf]
    exact List.mem_singleton_self x
  | sequence member _ ih | alternative member _ ih =>
    rw [leaves, leavesOfAll_eq]
    exact List.mem_flatMap.mpr ⟨_, member, ih⟩
  | group _ ih | option _ ih | repetition _ ih =>
    rw [leaves]
    exact ih

mutual

/-- The texts that are collected are those among the leaves. -/
theorem literals_eq_filterMap : (e : Expr) → e.literals = e.leaves.filterMap text?
  | .literal _ | .range _ _ | .name _ => rfl
  | .sequence items | .alternative items => by
    rw [literals, leaves]
    exact literalsOfAll_eq_filterMap items
  | .group body | .option body | .repetition body => by
    rw [literals, leaves]
    exact literals_eq_filterMap body

theorem literalsOfAll_eq_filterMap : (items : List Expr) →
    literalsOfAll items = (leavesOfAll items).filterMap text?
  | [] => by rw [literalsOfAll, leavesOfAll, List.filterMap_nil]
  | x :: rest => by
    rw [literalsOfAll, leavesOfAll, List.filterMap_append, literals_eq_filterMap x,
      literalsOfAll_eq_filterMap rest]

end

end Expr

namespace Production

def Holds (p : Production) (x : Expr) : Prop := ∃ body, p.body = some body ∧ x.Occurs body

/-- The production holds something that has no place in a parser rule for the given reason: the name of
a fragment or a character range. A name without a production is no such reason. -/
def Blames (p : Production) : CompileFault → Prop
  | .fragment name => kindOf name = .fragment ∧ ∃ n, p.Holds (.name n) ∧ n.text = name
  | .range => ∃ first last, p.Holds (.range first last)
  | .noProduction _ => False

def Unfit (p : Production) : Prop := ∃ fault, p.Blames fault

def leaves (p : Production) : List Expr := (p.body.map Expr.leaves).getD []

def fault? (p : Production) : Option CompileFault := p.leaves.findSome? Expr.fault?

variable {p : Production} {x : Expr}

theorem holds_of_mem_leaves (h : x ∈ p.leaves) : p.Holds x := by
  unfold leaves at h
  cases bodied : p.body with
  | none =>
    rw [bodied] at h
    cases h
  | some body =>
    rw [bodied] at h
    exact ⟨body, bodied, Expr.occurs_of_mem_leaves body h⟩

theorem Holds.mem_leaves (h : p.Holds x) (leaf : x.leaves = [x]) : x ∈ p.leaves := by
  obtain ⟨body, bodied, occurs⟩ := h
  rw [leaves, bodied]
  exact occurs.mem_leaves leaf

theorem Holds.mem_literals {text : Located} (h : p.Holds (.literal text)) :
    text.text ∈ Compile.bodyLiterals p := by
  obtain ⟨body, bodied, occurs⟩ := h
  rw [Compile.bodyLiterals, bodied]
  show text.text ∈ body.literals
  rw [Expr.literals_eq_filterMap]
  exact List.mem_filterMap.mpr ⟨_, occurs.mem_leaves (by rw [Expr.leaves]), rfl⟩

theorem blames_iff {fault : CompileFault} :
    p.Blames fault ↔ ∃ x ∈ p.leaves, x.fault? = some fault := by
  constructor
  · intro blamed
    cases fault with
    | fragment name =>
      obtain ⟨fragment, n, holds, rfl⟩ := blamed
      exact ⟨.name n, holds.mem_leaves (by rw [Expr.leaves]), if_pos fragment⟩
    | range =>
      obtain ⟨first, last, holds⟩ := blamed
      exact ⟨.range first last, holds.mem_leaves (by rw [Expr.leaves]), rfl⟩
    | noProduction name => exact blamed.elim
  · rintro ⟨x, listed, found⟩
    have holds := holds_of_mem_leaves listed
    cases x with
    | name n =>
      by_cases fragment : kindOf n.text = .fragment
      · rw [Expr.fault?, if_pos fragment] at found
        cases found
        exact ⟨fragment, n, holds, rfl⟩
      · rw [Expr.fault?, if_neg fragment] at found
        cases found
    | range first last =>
      cases found
      exact ⟨first, last, holds⟩
    | literal | sequence | alternative | group | option | repetition => cases found

theorem blames_of_fault? {fault : CompileFault} (h : p.fault? = some fault) : p.Blames fault :=
  blames_iff.mpr (List.exists_of_findSome?_eq_some h)

theorem isSome_fault?_iff : p.fault?.isSome ↔ p.Unfit := by
  rw [fault?, List.findSome?_isSome_iff]
  constructor
  · rintro ⟨x, listed, found⟩
    obtain ⟨fault, found⟩ := Option.isSome_iff_exists.mp found
    exact ⟨fault, blames_iff.mpr ⟨x, listed, found⟩⟩
  · rintro ⟨fault, blamed⟩
    obtain ⟨x, listed, found⟩ := blames_iff.mp blamed
    exact ⟨x, listed, by rw [found, Option.isSome_some]⟩

end Production

end Ebnf

/-! ## How building ends -/

/-- A name of a token or of a rule stands for something. -/
def Bindings.Binds (b : Bindings) (name : Bytes) : Prop :=
  (kindOf name = .token → ∃ symbol, b.table.tokenSymbol? name = some symbol) ∧
    (kindOf name = .rule → ∃ index, b.rules.idxOf? name = some index)

namespace Compile

variable {α β : Type} {b : Bindings} {rule : Nat}

/-- Whatever has been built so far, building fails with a fault, or does not fail. -/
def Ends (x : Building α) : Option CompileFault → Prop
  | none => ∀ a, ∃ r, x a = .ok r
  | some fault => ∀ a, x a = .error fault

theorem bind_of_ok {x : Building α} {f : α → Building β} {a a' : Automaton} {v : α}
    (h : x a = .ok (v, a')) : (x >>= f) a = f v a' := by
  simp only [bind, StateT.bind, Except.bind, h]

theorem bind_of_error {x : Building α} {f : α → Building β} {a : Automaton} {fault : CompileFault}
    (h : x a = .error fault) : (x >>= f) a = .error fault := by
  simp only [bind, StateT.bind, Except.bind, h]

namespace Ends

theorem pure (v : α) : Ends (Pure.pure v : Building α) none := fun a => ⟨(v, a), rfl⟩

theorem newState (rule : Nat) (kind : StateKind) : Ends (newState rule kind) none := fun _ => ⟨_, rfl⟩

theorem connect (source : Nat) (t : Transition) : Ends (connect source t) none := fun _ => ⟨_, rfl⟩

theorem throw (fault : CompileFault) : Ends (MonadExcept.throw fault : Building α) (some fault) :=
  fun _ => rfl

theorem bind {x : Building α} {f : α → Building β} {fault next : Option CompileFault}
    (h : Ends x fault) (h' : ∀ v, Ends (f v) next) : Ends (x >>= f) (fault.or next) := by
  cases fault with
  | some fault => exact fun a => bind_of_error (h a)
  | none =>
    cases next with
    | none =>
      intro a
      obtain ⟨⟨v, a'⟩, ran⟩ := h a
      rw [bind_of_ok ran]
      exact h' v a'
    | some next =>
      intro a
      obtain ⟨⟨v, a'⟩, ran⟩ := h a
      rw [bind_of_ok ran]
      exact h' v a'

theorem after {x : Building α} {f : α → Building β} {fault : Option CompileFault} (h : Ends x none)
    (h' : ∀ v, Ends (f v) fault) : Ends (x >>= f) fault :=
  h.bind h'

theorem before {x : Building α} {f : α → Building β} {fault : Option CompileFault} (h : Ends x fault)
    (h' : ∀ v, Ends (f v) none) : Ends (x >>= f) fault := by
  have ends := h.bind h'
  rw [Option.or_none] at ends
  exact ends

end Ends

theorem between_ends (transition : Nat → Transition) : Ends (between rule transition) none :=
  (Ends.newState _ _).after fun _ => (Ends.newState _ _).after fun _ =>
    (Ends.connect _ _).after fun _ => .pure _

theorem passage_ends : Ends (passage rule) none := (Ends.newState _ _).after fun _ => .pure _

theorem name_ends {n : Located} (bound : b.Binds n.text) :
    Ends (expr b rule (.name n)) (Expr.fault? (.name n)) := by
  rw [expr, Expr.fault?]
  cases kind : kindOf n.text with
  | token =>
    obtain ⟨symbol, known⟩ := bound.1 kind
    simp only [known]
    exact between_ends _
  | rule =>
    obtain ⟨index, known⟩ := bound.2 kind
    simp only [known]
    exact between_ends _
  | fragment => exact Ends.throw _

mutual

/-- Building an expression whose names are bound ends with the fault of its first unfit leaf. -/
theorem expr_ends : (e : Expr) → (∀ n ∈ e.names, b.Binds n.text) →
    Ends (expr b rule e) (e.leaves.findSome? Expr.fault?)
  | .literal text, _ => by
    rw [expr]
    exact between_ends _
  | .name n, bound => by
    rw [Expr.leaves, List.findSome?_singleton]
    exact name_ends (bound n List.mem_cons_self)
  | .range first last, _ => by
    rw [expr]
    exact Ends.throw _
  | .sequence items, bound => by
    rw [expr, Expr.leaves]
    exact chain_ends items none bound
  | .alternative items, bound => by
    rw [expr, Expr.leaves]
    exact (Ends.newState _ _).after fun start => (Ends.newState _ _).after fun stop =>
      (branches_ends start stop items bound).before fun _ => .pure _
  | .group body, bound => by
    rw [expr, Expr.leaves]
    exact expr_ends body bound
  | .option body, bound => by
    rw [expr, Expr.leaves]
    exact (expr_ends body bound).before fun _ => (Ends.newState _ _).after fun _ =>
      (Ends.newState _ _).after fun _ => (Ends.connect _ _).after fun _ =>
      (Ends.connect _ _).after fun _ => (Ends.connect _ _).after fun _ => .pure _
  | .repetition body, bound => by
    rw [expr, Expr.leaves]
    exact (Ends.newState _ _).after fun _ => (Ends.newState _ _).after fun _ =>
      (Ends.newState _ _).after fun _ => (Ends.newState _ _).after fun _ =>
      (Ends.newState _ _).after fun _ => (expr_ends body bound).before fun _ =>
      (Ends.connect _ _).after fun _ => (Ends.connect _ _).after fun _ =>
      (Ends.connect _ _).after fun _ => (Ends.connect _ _).after fun _ =>
      (Ends.connect _ _).after fun _ => (Ends.connect _ _).after fun _ => .pure _

theorem chain_ends : (items : List Expr) → (before : Option Part) →
    (∀ n ∈ Expr.namesOfAll items, b.Binds n.text) →
    Ends (chain b rule before items) ((Expr.leavesOfAll items).findSome? Expr.fault?)
  | [], none, _ => by
    rw [chain]
    exact passage_ends
  | [], some part, _ => by
    rw [chain]
    exact .pure part
  | x :: rest, none, bound => by
    have bound := List.forall_mem_append.mp bound
    rw [chain, Expr.leavesOfAll, List.findSome?_append]
    exact (expr_ends x bound.1).bind fun part => chain_ends rest (some part) bound.2
  | x :: rest, some before, bound => by
    have bound := List.forall_mem_append.mp bound
    rw [chain, Expr.leavesOfAll, List.findSome?_append]
    exact (expr_ends x bound.1).bind fun part => (Ends.connect _ _).after fun _ =>
      chain_ends rest (some ⟨before.entry, part.exit⟩) bound.2

theorem branches_ends (start stop : Nat) : (items : List Expr) →
    (∀ n ∈ Expr.namesOfAll items, b.Binds n.text) →
    Ends (branches b rule start stop items) ((Expr.leavesOfAll items).findSome? Expr.fault?)
  | [], _ => by
    rw [branches]
    exact .pure ()
  | x :: rest, bound => by
    have bound := List.forall_mem_append.mp bound
    rw [branches, Expr.leavesOfAll, List.findSome?_append]
    exact (expr_ends x bound.1).bind fun part => (Ends.connect _ _).after fun _ =>
      (Ends.connect _ _).after fun _ => branches_ends start stop rest bound.2

end

theorem rule_ends {p : Production} (bound : ∀ n ∈ p.names, b.Binds n.text) (index : Nat) :
    Ends (Compile.rule b index p) p.fault? := by
  have body : Ends (body b index p.body) p.fault? := by
    unfold Production.fault? Production.leaves
    unfold Production.names at bound
    cases bodied : p.body with
    | none => exact passage_ends
    | some e =>
      rw [bodied] at bound
      exact expr_ends e bound
  exact body.before fun _ => (Ends.connect _ _).after fun _ => Ends.connect _ _

/-- Several rules fail with the fault of the first that has one. -/
theorem rulesFrom_error_iff {productions : List Production} {e : CompileError}
    (bound : ∀ p ∈ productions, ∀ n ∈ p.names, b.Binds n.text) (index : Nat) (a : Automaton) :
    rulesFrom b index productions a = .error e ↔
      productions.findSome? (fun p => p.fault?.map (CompileError.mk p.name.text)) = some e := by
  induction productions generalizing index a with
  | nil =>
    rw [rulesFrom, List.findSome?_nil]
    constructor <;> intro h <;> cases h
  | cons p rest ih =>
    have own := rule_ends (bound p List.mem_cons_self) index
    have ih := ih fun q member => bound q (List.mem_cons_of_mem p member)
    rw [rulesFrom, List.findSome?_cons]
    cases found : p.fault? with
    | none =>
      rw [found] at own
      obtain ⟨⟨u, a'⟩, ran⟩ := own a
      simp only [ran, Option.map_none]
      exact ih (index + 1) a'
    | some fault =>
      rw [found] at own
      simp only [own a, Option.map_some, Except.error.injEq, Option.some.injEq]

theorem automaton_error_iff {source : Source} {start : Bytes} {table : TokenTable} {e : CompileError}
    (bound : ∀ p ∈ source.ofKind .rule, ∀ n ∈ p.names, (bindings source start table).Binds n.text) :
    automaton source start table = .error e ↔
      (ruleProductions source start).findSome?
        (fun p => p.fault?.map (CompileError.mk p.name.text)) = some e := by
  have bound : ∀ p ∈ ruleProductions source start, ∀ n ∈ p.names,
      (bindings source start table).Binds n.text :=
    fun p member => bound p (mem_ruleProductions.mp member)
  rw [← rulesFrom_error_iff bound 0 (((ruleProductions source start).map
    fun p => p.name.text).foldl Automaton.addRule Automaton.empty)]
  unfold automaton
  show Except.bind (rulesFrom (bindings source start table) 0 _ _) _ = _ ↔ _
  cases rulesFrom (bindings source start table) 0 (ruleProductions source start)
    (((ruleProductions source start).map fun p => p.name.text).foldl Automaton.addRule
      Automaton.empty) with
  | error fault => exact Iff.rfl
  | ok a => constructor <;> intro h <;> cases h

end Compile

/-! ## What the check guarantees -/

namespace TokenTable

theorem exists_tokenSymbol? {source : Source} (skip : List Bytes) {p : Production}
    (h : p ∈ source.ofKind .token) :
    ∃ symbol, (ofSource source skip).tokenSymbol? p.name.text = some symbol := by
  obtain ⟨i, declared⟩ := List.mem_iff_getElem?.mp h
  have entry := List.mem_of_getElem? (entry_of_production skip declared)
  have named : p.name.text ≠ [] := ne_nil_of_kindOf_token (Source.kindOf_of_mem_ofKind h)
  have found : ((ofSource source skip).entries.findIdx?
      fun e => !e.name.isEmpty && e.name == p.name.text).isSome := by
    rw [List.findIdx?_isSome, List.any_eq_true]
    exact ⟨_, entry, by simp [TokenEntry.ofProduction, named]⟩
  obtain ⟨j, found⟩ := Option.isSome_iff_exists.mp found
  exact ⟨symbolAt j, by rw [tokenSymbol?, found, Option.map_some]⟩

/-- The type of a text in a parser rule is one that users see. -/
theorem exists_literalSymbol? {source : Source} (skip : List Bytes)
    (small : (ofSource source skip).entries.length + 1 < 2 ^ 63) {p : Production}
    (isRule : p ∈ source.ofKind .rule) {text : Located} (holds : p.Holds (.literal text)) :
    ∃ symbol, (ofSource source skip).literalSymbol? text.text = some symbol ∧
      Symbol.firstUser ≤ symbol := by
  obtain ⟨symbol, found⟩ := ofSource_types skip isRule _ holds.mem_literals
  obtain ⟨i, inside, rfl⟩ := symbolAt_of_literalSymbol? found
  exact ⟨_, found, (symbolAt_bounds inside small).1⟩

end TokenTable

namespace Grammar

variable {name text start : Bytes} {skip : List Bytes} {source : Source}

/-- Names that the check lets pass are bound. -/
theorem binds_of_check (checked : source.check (root start skip) = []) {p : Production}
    (member : p ∈ source) {n : Located} (named : n ∈ p.names) :
    (Compile.bindings source start (TokenTable.ofSource source skip)).Binds n.text := by
  obtain ⟨q, found⟩ := find?_of_productionErrors ((productionErrors_of_check checked).2 p member) named
  have same : q.name.text = n.text := by simpa using List.find?_some found
  have listed {kind : Kind} (isKind : kindOf n.text = kind) : q ∈ source.ofKind kind :=
    List.mem_filter.mpr ⟨List.mem_of_find?_eq_some found, by simp [same, isKind]⟩
  constructor
  · intro isToken
    rw [← same]
    exact TokenTable.exists_tokenSymbol? skip (listed isToken)
  · intro isRule
    have declared : n.text ∈ (Compile.bindings source start (TokenTable.ofSource source skip)).rules :=
      List.mem_map.mpr ⟨q, Compile.mem_ruleProductions.mpr (listed isRule), same⟩
    rw [← Option.isSome_iff_exists, List.isSome_idxOf?]
    exact declared

/-- Only one production has the name that the start production has. -/
theorem filter_name_eq_singleton (declared : source.Declared) {top : Production}
    (found : source.find? start = some top) (isRule : kindOf start = .rule) :
    (source.ofKind .rule).filter (fun p => p.name.text == start) = [top] := by
  have named : top.name.text = start := by simpa using List.find?_some found
  have member : top ∈ (source.ofKind .rule).filter fun p => p.name.text == start := by
    simp [Source.ofKind, List.mem_of_find?_eq_some found, named, isRule]
  have distinct := (declared.nodup_ofKind .rule).sublist
    ((List.filter_sublist (p := fun p => p.name.text == start)).map _)
  have alike : ∀ p ∈ (source.ofKind .rule).filter fun p => p.name.text == start,
      p.name.text = start := fun p listed => by simpa using (List.mem_filter.mp listed).2
  generalize (source.ofKind .rule).filter (fun p => p.name.text == start) = firsts at *
  cases firsts with
  | nil => cases member
  | cons p more =>
    cases more with
    | nil => rw [List.mem_singleton.mp member]
    | cons q more =>
      have same : p.name.text = q.name.text := by rw [alike p (by simp), alike q (by simp)]
      simp [same] at distinct

theorem message_of_blames {p : Production} {e : CompileError} (h : p.Blames e.fault) :
    ∃ detail : Bytes, e.message = "rule " ++ e.rule ++ ": unsupported expression: " ++ detail := by
  have wording : (": unsupported expression: " : Bytes) = ": " ++ "unsupported expression: " := by
    decide +kernel
  unfold CompileError.message
  cases fault : e.fault with
  | noProduction name =>
    rw [fault] at h
    exact h.elim
  | fragment name =>
    refine ⟨"fragment " ++ name ++ " referenced from a parser rule", ?_⟩
    have front : ("unsupported expression: fragment " : Bytes) =
      "unsupported expression: " ++ "fragment " := by decide +kernel
    rw [CompileFault.message, front, wording]
    simp only [List.append_assoc]
  | range =>
    refine ⟨"character range in a parser rule", ?_⟩
    have front : ("unsupported expression: character range in a parser rule" : Bytes) =
      "unsupported expression: " ++ "character range in a parser rule" := by decide +kernel
    rw [CompileFault.message, front, wording]
    simp only [List.append_assoc]

/-- Checked productions compile unless a parser rule holds, at any depth, the name of a fragment or a
character range. The error is about the first such rule, the start production coming first and the others
in declaration order, and about something that stands in it: no production is missing, and every text in
a parser rule has a type. -/
theorem compile_fails_at_first_unfit_rule (hread : read name text = .ok source)
    (small : text.length < 2 ^ 63) (verified : verify source start skip = .ok ()) :
    ((∃ e, Compile.automaton source start (TokenTable.ofSource source skip) = .error e) ↔
      ∃ p ∈ source.ofKind .rule, p.Unfit) ∧
    (∃ top, source.find? start = some top ∧
      ∀ e, Compile.automaton source start (TokenTable.ofSource source skip) = .error e →
        ∃ front p back,
          top :: (source.ofKind .rule).filter (fun q => q.name.text != start) = front ++ p :: back ∧
          (∀ q ∈ front, ¬ q.Unfit) ∧ e.rule = p.name.text ∧ p.Blames e.fault ∧
          (∀ unknown, e.fault ≠ .noProduction unknown) ∧
          ∃ detail : Bytes,
            e.message = "rule " ++ p.name.text ++ ": unsupported expression: " ++ detail) ∧
    ∀ p ∈ source.ofKind .rule, ∀ t, p.Holds (.literal t) →
      ∃ symbol, (TokenTable.ofSource source skip).literalSymbol? t.text = some symbol ∧
        Symbol.firstUser ≤ symbol := by
  obtain ⟨isRule, checked⟩ := verify_ok verified
  obtain ⟨top, found⟩ := find?_of_check checked
  have bound : ∀ p ∈ source.ofKind .rule, ∀ n ∈ p.names,
      (Compile.bindings source start (TokenTable.ofSource source skip)).Binds n.text :=
    fun p member n named => binds_of_check checked (List.mem_filter.mp member).1 named
  refine ⟨?_, ⟨top, found, ?_⟩, ?_⟩
  · simp only [Compile.automaton_error_iff bound]
    rw [← Option.isSome_iff_exists, List.findSome?_isSome_iff]
    simp only [Option.isSome_map, Production.isSome_fault?_iff, Compile.mem_ruleProductions]
  · intro e failed
    rw [Compile.automaton_error_iff bound, List.findSome?_eq_some_iff] at failed
    obtain ⟨front, p, back, order, own, fit⟩ := failed
    obtain ⟨fault, first, rfl⟩ := Option.map_eq_some_iff.mp own
    have blamed := Production.blames_of_fault? first
    refine ⟨front, p, back, ?_, ?_, rfl, blamed, ?_, message_of_blames blamed⟩
    · rw [← order, Compile.ruleProductions,
        filter_name_eq_singleton (declared_of_read hread) found isRule, List.singleton_append]
    · intro q before
      have unblamed := Option.map_eq_none_iff.mp (fit q before)
      rw [← Production.isSome_fault?_iff, unblamed]
      exact Bool.false_ne_true
    · rintro unknown rfl
      exact blamed
  · intro p member t holds
    exact TokenTable.exists_literalSymbol? skip (TokenTable.length_ofSource_lt hread small skip)
      member holds

/-- The first rule holds the name of a fragment. The last one, where parsing starts, has a range in a
group in an option in a repetition. -/
def deepRange : Bytes :=
  "First = \"a\" digit . digit = \"0\" … \"9\" . " ++
    "Start = \"b\" \x7b [ ( First | \"0\" … \"9\" ) ] \x7d ."

/-- The start rule is the one that the error names, although another unfit rule is declared before. -/
theorem compile_fails_at_first_unfit_rule_deepRange :
    ∃ source, read "g" deepRange = .ok source ∧ verify source "Start" [] = .ok () ∧
      (∃ p ∈ source.ofKind .rule, p.name.text = "First" ∧ p.Unfit) ∧
      ∃ e, Compile.automaton source "Start" (TokenTable.ofSource source []) = .error e ∧
        e.rule = "Start" := by
  have answered : (read "g" deepRange).toOption.map (fun source => decide
      ((verify source "Start" []).toOption.map (fun _ => true) = some true ∧
        (∃ p ∈ source.ofKind .rule, p.name.text = "First" ∧ p.fault?.isSome) ∧
        ∀ p ∈ source.find? "Start", p.fault?.isSome)) = some true := by
    decide +kernel
  obtain ⟨source, hread, found⟩ := exists_ok_of_toOption answered
  obtain ⟨passed, ⟨first, isRule, named, unfit⟩, unfitStart⟩ := of_decide_eq_true found
  obtain ⟨u, verified, -⟩ := exists_ok_of_toOption passed
  rw [Production.isSome_fault?_iff] at unfit
  obtain ⟨fails, ⟨top, found, blames⟩, -⟩ :=
    compile_fails_at_first_unfit_rule hread (by decide +kernel) verified
  obtain ⟨e, failed⟩ := fails.mpr ⟨first, isRule, unfit⟩
  obtain ⟨front, p, back, order, fit, rule, -⟩ := blames e failed
  refine ⟨source, hread, verified, ⟨first, isRule, named, unfit⟩, e, failed, ?_⟩
  cases front with
  | nil =>
    obtain ⟨rfl, -⟩ := List.cons.inj order
    rw [rule]
    simpa using List.find?_some found
  | cons q more =>
    obtain ⟨rfl, -⟩ := List.cons.inj order
    exact (fit top List.mem_cons_self (Production.isSome_fault?_iff.mp (unfitStart top found))).elim

end Grammar

end GrammarCompletion
