import GrammarCompletion.Proofs.Ebnf.Identifiers
import GrammarCompletion.Proofs.Language.Labels
import GrammarCompletion.Report.Answer

/-!
# Reading line reports

A line report escapes nothing. It can be read all the same, since labels and details are made of
identifiers, quoted texts and numbers, which have neither tabs nor line ends in them. Splitting a report
at its line ends and the lines at their tabs gives back what is proposed.
-/

namespace GrammarCompletion

/-! ## Splitting -/

namespace Bytes

/-- Texts that each end with a separator come apart, and nothing is left behind the last one. -/
theorem splitOn_flatMap {α : Type} {sep : UInt8} {items : List α} {f : α → Bytes}
    (free : ∀ x ∈ items, sep ∉ f x) :
    (items.flatMap fun x => f x ++ [sep]).splitOn sep = items.map f ++ [[]] := by
  induction items with
  | nil => rfl
  | cons x rest ih =>
    have ⟨first, others⟩ := List.forall_mem_cons.mp free
    have plain : ∀ b ∈ f x, (b == sep) = false := by
      intro b member
      rw [beq_eq_false_iff_ne]
      rintro rfl
      exact first member
    rw [List.flatMap_cons, List.append_assoc, List.singleton_append, List.splitOn,
      List.splitOnP_append_cons_of_forall_mem plain sep (BEq.rfl), List.map_cons, List.cons_append]
    exact congrArg _ (ih others)

end Bytes

/-! ## Names in an answer -/

namespace TokenTable

open Ebnf

/-- What names token types is quoted or the name of a production. -/
theorem plain_vocabulary {source : Source} (skip : List Bytes)
    (named : ∀ p ∈ source, p.name.text.Plain) :
    (∀ name ∈ (ofSource source skip).vocabulary.literalNames, name.Plain) ∧
      ∀ name ∈ (ofSource source skip).vocabulary.symbolicNames, name.Plain := by
  have empty : Bytes.Plain [] := List.forall_mem_nil _
  unfold vocabulary
  simp only [List.mem_toArray, List.forall_mem_cons, List.forall_mem_map]
  refine ⟨⟨empty, ?_⟩, empty, ?_⟩
  · intro e _
    unfold TokenEntry.literalName
    cases e.literal with
    | none => exact empty
    | some text => exact Vocabulary.plain_literalName text
  · rw [entries_ofSource]
    rw [List.forall_mem_append]
    simp only [List.forall_mem_map]
    constructor
    · intro p declared
      exact named p (List.mem_filter.mp declared).1
    · intro text _
      exact empty

end TokenTable

namespace Language

variable {l : Language} {definition : Definition} {source : Bytes}

theorem plain_ruleName (made : make definition source = .ok l) (rule : Int) :
    (l.ruleName rule).Plain := by
  have parsed := (parsed_of_make made).1
  unfold ruleName
  cases found : l.grammar.automaton.rule? rule with
  | none => exact List.forall_mem_nil _
  | some r =>
    unfold Automaton.rule? at found
    split at found
    · cases found
    · obtain ⟨p, listed, rfl⟩ := (Grammar.filled parsed).production_of_rule found
      have isRule := Compile.mem_ruleProductions.mp (List.mem_of_getElem? listed)
      exact Ebnf.plain_name_of_read (Grammar.parse_ok parsed).1 p (List.mem_filter.mp isRule).1

theorem plain_displayName (made : make definition source = .ok l) (t : Symbol) :
    (l.grammar.vocabulary.displayName t).Plain := by
  have ⟨hread, table, _⟩ := Grammar.parse_ok (parsed_of_make made).1
  have ⟨literal, symbolic⟩ :=
    TokenTable.plain_vocabulary definition.skip (Ebnf.plain_name_of_read hread)
  rw [← table] at literal symbolic
  exact Vocabulary.plain_displayName literal symbolic t

end Language

def Completion.IsAnswer (c : Completion) : Prop :=
  ∃ definition source l cache text offset evaluator, Language.make definition source = .ok l ∧
    (l.complete cache text offset evaluator).result = .ok c

/-! ## Lines -/

namespace Report

/-- The proposal can be told from the line that reports it. -/
structure Legible (p : Proposal) : Prop where
  kind : ProposalKind.ofText? p.kind.text = some p.kind
  label : p.label.Plain
  detail : p.detail.Plain

theorem legible_proposals {l : Language} {definition : Definition} {source : Bytes}
    (made : Language.make definition source = .ok l) (c : Candidates) :
    ∀ p ∈ l.proposals c, Legible p := by
  have kinds : ∀ kind ∈ [ProposalKind.token, .rule, .following],
      ProposalKind.ofText? kind.text = some kind := by
    decide +kernel
  have token := Language.plain_displayName made
  have rule := Language.plain_ruleName made
  rw [Language.proposals_eq, List.forall_mem_append, List.forall_mem_append]
  simp only [List.forall_mem_map]
  refine ⟨⟨?_, ?_⟩, ?_⟩
  · intro e _
    have detail : (Bytes.join " " (e.2.map l.grammar.vocabulary.displayName)).Plain :=
      Bytes.plain_join (by decide +kernel) (List.forall_mem_map.mpr fun t _ => token t)
    exact ⟨kinds .token (by decide), token e.1, detail⟩
  · intro e _
    have detail : (Bytes.join " > " (e.2.map l.ruleName)).Plain :=
      Bytes.plain_join (by decide +kernel) (List.forall_mem_map.mpr fun i _ => rule i)
    exact ⟨kinds .rule (by decide), rule e.1, detail⟩
  · intro t _
    exact ⟨kinds .following (by decide), token t, List.forall_mem_nil _⟩

def shown (p : Proposal) : ProposalKind × Bytes × Bytes := (p.kind, p.label, p.detail)

def fields (p : Proposal) : List Bytes :=
  if p.detail = [] then [p.kind.text, p.label] else [p.kind.text, p.label, p.detail]

def row (p : Proposal) : Bytes := Bytes.join [0x09] (fields p)

theorem line_eq (p : Proposal) : line p = row p ++ [Bytes.newline] := by
  have tab : ("\t" : Bytes) = [0x09] := by decide +kernel
  have newline : ("\n" : Bytes) = [Bytes.newline] := by decide +kernel
  rw [line, row, fields, tab, newline]
  simp only [List.isEmpty_iff]

variable {p q : Proposal}

namespace Legible

theorem plain_fields (h : Legible p) : ∀ field ∈ fields p, field.Plain := by
  have kind : p.kind.text.Plain := by
    have plain : ∀ kind ∈ [ProposalKind.token, .rule, .following], kind.text.Plain := by
      decide +kernel
    exact plain p.kind (List.mem_of_find?_eq_some h.kind)
  unfold fields
  by_cases empty : p.detail = []
  · rw [if_pos empty]
    simp only [List.forall_mem_cons]
    exact ⟨kind, h.label, List.forall_mem_nil _⟩
  · rw [if_neg empty]
    simp only [List.forall_mem_cons]
    exact ⟨kind, h.label, h.detail, List.forall_mem_nil _⟩

theorem splitOn_row (h : Legible p) : List.splitOn 0x09 (row p) = fields p := by
  apply List.splitOn_intercalate
  · intro field member
    exact (h.plain_fields field member).not_mem (by decide)
  · unfold fields
    split <;> exact List.cons_ne_nil _ _

theorem not_mem_row (h : Legible p) : Bytes.newline ∉ row p := by
  intro member
  rcases Bytes.mem_join member with tab | ⟨field, listed, inside⟩
  · exact absurd tab (by decide)
  · exact (h.plain_fields field listed).not_mem (by decide) inside

/-- The fields of a line tell what is proposed. -/
theorem eq_of_fields (h : Legible p) (h' : Legible q) (same : fields p = fields q) :
    shown p = shown q := by
  have kind : p.kind.text = q.kind.text → p.kind = q.kind := by
    intro texts
    have found := h.kind
    rw [texts, h'.kind] at found
    exact (Option.some.inj found).symm
  unfold fields at same
  unfold shown
  by_cases empty : p.detail = []
  · by_cases empty' : q.detail = []
    · simp only [empty, empty', if_true, List.cons.injEq] at same
      rw [kind same.1, same.2.1, empty, empty']
    · simp [empty, empty'] at same
  · by_cases empty' : q.detail = []
    · simp [empty, empty'] at same
    · simp only [empty, empty', if_false, List.cons.injEq] at same
      rw [kind same.1, same.2.1, same.2.2.1]

end Legible

/-- Line by line and field by field, a report gives the fields of the proposals. -/
theorem splitOn_lines {c : Completion} (legible : ∀ p ∈ c.proposals, Legible p) :
    (List.splitOn Bytes.newline (lines c)).map (List.splitOn 0x09) = c.proposals.map fields ++ [[[]]] := by
  have whole : lines c = c.proposals.flatMap fun p => row p ++ [Bytes.newline] := by
    unfold lines
    rw [funext line_eq]
  have rows : c.proposals.map (List.splitOn 0x09 ∘ row) = c.proposals.map fields :=
    List.map_congr_left fun p member => (legible p member).splitOn_row
  rw [whole, Bytes.splitOn_flatMap fun p member => (legible p member).not_mem_row, List.map_append,
    List.map_map, rows]
  rfl

theorem shown_eq_of_fields {ps qs : List Proposal} (legible : ∀ p ∈ ps, Legible p)
    (legible' : ∀ q ∈ qs, Legible q) (same : ps.map fields = qs.map fields) :
    ps.map shown = qs.map shown := by
  induction ps generalizing qs with
  | nil =>
    rw [List.map_nil, eq_comm, List.map_eq_nil_iff] at same
    rw [same]
  | cons p ps ih =>
    cases qs with
    | nil => cases same
    | cons q qs =>
      have ⟨first, others⟩ := List.forall_mem_cons.mp legible
      have ⟨first', others'⟩ := List.forall_mem_cons.mp legible'
      have ⟨fields, rest⟩ := List.cons.inj same
      rw [List.map_cons, List.map_cons, first.eq_of_fields first' fields, ih others others' rest]

theorem legible_of_isAnswer {c : Completion} (h : c.IsAnswer) : ∀ p ∈ c.proposals, Legible p := by
  obtain ⟨definition, source, l, cache, text, offset, evaluator, made, ok⟩ := h
  unfold Language.complete at ok
  split at ok
  · cases ok
  · dsimp only at ok
    split at ok
    · cases ok
    · cases ok
      exact legible_proposals made _

/-- Splitting a report at its line ends gives a line for each proposal, in order, and nothing behind the
last line end. Splitting a line at its tabs gives the kind, the label and, unless it is empty, the detail
of the proposal, and the text of the kind names it. So answers that are reported alike show the same,
also if they come from different languages. -/
theorem lines_give_back_proposals {c : Completion} (answer : c.IsAnswer) :
    (List.splitOn Bytes.newline (lines c)).map (List.splitOn 0x09) =
        c.proposals.map (fun p =>
          if p.detail = [] then [p.kind.text, p.label] else [p.kind.text, p.label, p.detail]) ++ [[[]]] ∧
      (∀ p ∈ c.proposals, ProposalKind.ofText? p.kind.text = some p.kind) ∧
      ∀ c' : Completion, c'.IsAnswer → lines c' = lines c →
        c'.proposals.map (fun p => (p.kind, p.label, p.detail)) =
          c.proposals.map fun p => (p.kind, p.label, p.detail) := by
  have legible := legible_of_isAnswer answer
  refine ⟨splitOn_lines legible, fun p member => (legible p member).kind, ?_⟩
  intro c' answer' same
  have legible' := legible_of_isAnswer answer'
  have fields := splitOn_lines legible'
  rw [same, splitOn_lines legible] at fields
  exact shown_eq_of_fields legible' legible (List.append_cancel_right fields).symm

/-- A text with a tab in it comes behind one with a line end and a stray byte. -/
def cells : Definition where
  name := "cells"
  grammar := "cells"
  start := "Text"
  skip := []
  preferred := ["Cell"]
  extensions := []

def cellsSource : Bytes :=
  "Text = \"\\n\\xff\" \"a\\tb\" NAME | Cell . Cell = NAME . NAME = \"x\" … \"z\" ."

/-- In the report of what can start a text, only the tabs and line ends that divide it are left. -/
theorem lines_give_back_proposals_cells :
    ∃ l, Language.make cells cellsSource = .ok l ∧
      ∃ c, (l.complete {} [] 0 none).result = .ok c ∧
        (List.splitOn Bytes.newline (lines c)).map (List.splitOn 0x09) =
          ([["token", "'\\n\\xff'", "'a\\tb' NAME"], ["rule", "Cell", "Text"], ["following", "NAME"],
            ["following", "'a\\tb'"], [""]] : List (List Bytes)) := by
  have answered : (Language.make cells cellsSource).toOption.map (fun l =>
      (l.complete {} [] 0 none).result.toOption.map fun c => decide (c.proposals.map (fun p =>
          if p.detail = [] then [p.kind.text, p.label] else [p.kind.text, p.label, p.detail]) =
        ([["token", "'\\n\\xff'", "'a\\tb' NAME"], ["rule", "Cell", "Text"], ["following", "NAME"],
          ["following", "'a\\tb'"]] : List (List Bytes)))) = some (some true) := by
    decide +kernel
  obtain ⟨l, made, found⟩ := exists_ok_of_toOption answered
  obtain ⟨c, ok, found⟩ := exists_ok_of_toOption found
  have answer : c.IsAnswer := ⟨cells, cellsSource, l, {}, [], 0, none, made, ok⟩
  refine ⟨l, made, c, ok, ?_⟩
  rw [(lines_give_back_proposals answer).1, of_decide_eq_true found]
  decide +kernel

end Report

end GrammarCompletion
