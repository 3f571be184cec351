import GrammarCompletion.Grammar.TokenTable

/-!
# What productions stand for

An expression in a parser rule stands for sequences of token types. What it stands for depends on
what the names of parser rules in it stand for, and these in turn stand for what their productions
say: the language of a grammar is the least one that fits.
-/

namespace GrammarCompletion.Ebnf

/-- A sequence of token types that an expression stands for if rule names stand for what `rules`
says. -/
inductive Spells (table : TokenTable) (rules : Bytes → List Symbol → Prop) :
    Expr → List Symbol → Prop
  | literal {text : Located} {x : Symbol} (h : table.literalSymbol? text.text = some x) :
      Spells table rules (.literal text) [x]
  | token {n : Located} {x : Symbol} (hk : kindOf n.text = .token)
      (h : table.tokenSymbol? n.text = some x) : Spells table rules (.name n) [x]
  | rule {n : Located} {w : List Symbol} (hk : kindOf n.text = .rule) (h : rules n.text w) :
      Spells table rules (.name n) w
  | nil : Spells table rules (.sequence []) []
  | cons {x : Expr} {items : List Expr} {u v : List Symbol} (head : Spells table rules x u)
      (tail : Spells table rules (.sequence items) v) :
      Spells table rules (.sequence (x :: items)) (u ++ v)
  | alternative {x : Expr} {items : List Expr} {w : List Symbol} (hx : x ∈ items)
      (h : Spells table rules x w) : Spells table rules (.alternative items) w
  | group {body : Expr} {w : List Symbol} (h : Spells table rules body w) :
      Spells table rules (.group body) w
  | absent (body : Expr) : Spells table rules (.option body) []
  | present {body : Expr} {w : List Symbol} (h : Spells table rules body w) :
      Spells table rules (.option body) w
  | done (body : Expr) : Spells table rules (.repetition body) []
  | again {body : Expr} {u v : List Symbol} (head : Spells table rules body u)
      (tail : Spells table rules (.repetition body) v) :
      Spells table rules (.repetition body) (u ++ v)

/-- What the right side of a production stands for; a missing one stands for nothing at all. -/
inductive SpellsBody (table : TokenTable) (rules : Bytes → List Symbol → Prop) :
    Option Expr → List Symbol → Prop
  | empty : SpellsBody table rules none []
  | expr {e : Expr} {w : List Symbol} (h : Spells table rules e w) :
      SpellsBody table rules (some e) w

/-- The name of a parser rule stands for what its production says. -/
inductive Generates (source : Source) (table : TokenTable) : Bytes → List Symbol → Prop
  | production {name : Bytes} {p : Production} {w : List Symbol} (h : source.find? name = some p)
      (body : SpellsBody table (Generates source table) p.body w) : Generates source table name w

section
variable {table : TokenTable} {rules rules' : Bytes → List Symbol → Prop} {w : List Symbol}

theorem spells_sequence_nil : Spells table rules (.sequence []) w ↔ w = [] := by
  constructor
  · rintro ⟨⟩
    rfl
  · rintro rfl
    exact .nil

theorem spells_sequence_cons {x : Expr} {items : List Expr} :
    Spells table rules (.sequence (x :: items)) w ↔
      ∃ u v, w = u ++ v ∧ Spells table rules x u ∧ Spells table rules (.sequence items) v := by
  constructor
  · rintro ⟨⟩
    exact ⟨_, _, rfl, ‹_›, ‹_›⟩
  · rintro ⟨u, v, rfl, hx, hi⟩
    exact .cons hx hi

theorem spells_alternative {items : List Expr} :
    Spells table rules (.alternative items) w ↔ ∃ x ∈ items, Spells table rules x w := by
  constructor
  · rintro ⟨⟩
    exact ⟨_, ‹_›, ‹_›⟩
  · rintro ⟨x, hx, h⟩
    exact .alternative hx h

theorem spells_group {body : Expr} :
    Spells table rules (.group body) w ↔ Spells table rules body w := by
  constructor
  · rintro ⟨⟩
    assumption
  · exact .group

theorem spells_option {body : Expr} :
    Spells table rules (.option body) w ↔ w = [] ∨ Spells table rules body w := by
  constructor
  · rintro ⟨⟩
    · exact .inl rfl
    · exact .inr ‹_›
  · rintro (rfl | h)
    · exact .absent body
    · exact .present h

theorem Spells.mono (sub : ∀ name w, kindOf name = .rule → rules name w → rules' name w) {e : Expr}
    (h : Spells table rules e w) : Spells table rules' e w := by
  induction h with
  | literal h => exact .literal h
  | token hk h => exact .token hk h
  | rule hk h => exact .rule hk (sub _ _ hk h)
  | nil => exact .nil
  | cons _ _ head tail => exact .cons head tail
  | alternative hx _ ih => exact .alternative hx ih
  | group _ ih => exact .group ih
  | absent body => exact .absent body
  | present _ ih => exact .present ih
  | done body => exact .done body
  | again _ _ head tail => exact .again head tail

theorem SpellsBody.mono (sub : ∀ name w, kindOf name = .rule → rules name w → rules' name w)
    {body : Option Expr} (h : SpellsBody table rules body w) : SpellsBody table rules' body w := by
  cases h with
  | empty => exact .empty
  | expr h => exact .expr (h.mono sub)

end

/-- The language of a grammar is the least one that is closed under its productions. -/
theorem Generates.least {source : Source} {table : TokenTable}
    {rules : Bytes → List Symbol → Prop}
    (closed : ∀ name p w, source.find? name = some p → SpellsBody table rules p.body w →
      rules name w) {name : Bytes} {w : List Symbol} (h : Generates source table name w) :
    rules name w := by
  refine @Generates.rec source table (fun name w _ => rules name w)
    (fun body w _ => SpellsBody table rules body w) (fun e w _ => Spells table rules e w)
    ?production .empty ?expr ?literal ?token ?rule .nil ?cons ?alternative ?group ?absent ?present
    ?done ?again name w h
  case production => intro _ _ _ h _ ih; exact closed _ _ _ h ih
  case expr => intro _ _ _ ih; exact .expr ih
  case literal => intro _ _ h; exact .literal h
  case token => intro _ _ hk h; exact .token hk h
  case rule => intro _ _ hk _ ih; exact .rule hk ih
  case cons => intro _ _ _ _ _ _ head tail; exact .cons head tail
  case alternative => intro _ _ _ hx _ ih; exact .alternative hx ih
  case group => intro _ _ _ ih; exact .group ih
  case absent => exact .absent
  case present => intro _ _ _ ih; exact .present ih
  case done => exact .done
  case again => intro _ _ _ _ _ head tail; exact .again head tail

end GrammarCompletion.Ebnf
