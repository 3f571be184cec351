import GrammarCompletion.Proofs.Lexer.Settled
import GrammarCompletion.Proofs.Lexer.Tokens
import Mathlib.Data.List.Forall2

/-!
# The order of rules

What one rule remembers at the front of a text is there for the next rule. Exchanging two neighbours
changes nothing but their order if they reach no entangled name in common: each leaves alone what the other
may take over, so that both match as much as before, and all that is remembered in the end is the same for
the rules behind. So a permutation that keeps the order of all other rules gives tokens with the same
boundaries, and changes the type and the channel of a token only where several rules match equally much.
-/

namespace GrammarCompletion

open Ebnf Relation

/-- What a rule matches may depend on what a name stands for. -/
def LexRule.Reaches (source : Source) (rule : LexRule) (name : Bytes) : Prop :=
  ∃ body, rule.body = some body ∧ ∃ n ∈ (Lexer.Part.expr body).names, source.Reaches n name

theorem LexRule.Reaches.further {source : Source} {rule : LexRule} {a b : Bytes}
    (reaches : rule.Reaches source a) (onward : source.Reaches a b) : rule.Reaches source b := by
  obtain ⟨body, defined, n, listed, reaches⟩ := reaches
  exact ⟨body, defined, n, listed, reaches.trans onward⟩

theorem LexRule.reaches_closed {source : Source} (rule : LexRule) (a b : Bytes)
    (reaches : rule.Reaches source a) (uses : source.Uses a b) : rule.Reaches source b :=
  reaches.further (.single uses)

namespace Ebnf.Source

variable {source : Source} {names : List Bytes} {rank : Bytes → Nat}

/-- Along any path of leading names the rank falls, or the name stays the same. -/
theorem eq_or_lower_of_leads (leads : ∀ n ∈ names, ∀ body ∈ source.body? n, ∀ m ∈ body.leading,
    m ∈ names ∧ (m = n ∨ rank m < rank n)) {a b : Bytes} (listed : a ∈ names)
    (path : TransGen source.Leads a b) : b ∈ names ∧ (b = a ∨ rank b < rank a) := by
  induction path with
  | single step =>
    obtain ⟨body, found, first⟩ := step
    exact leads a listed body found _ first
  | tail _ step ih =>
    obtain ⟨body, found, first⟩ := step
    have ⟨member, lower⟩ := leads _ ih.1 body found _ first
    grind

theorem not_entangled_of_rank (leads : ∀ n ∈ names, ∀ body ∈ source.body? n, ∀ m ∈ body.leading,
    m ∈ names ∧ (m = n ∨ rank m < rank n)) {a : Bytes} (listed : a ∈ names) : ¬ source.Entangled a := by
  rintro ⟨b, differs, path, back⟩
  have ⟨member, lower⟩ := eq_or_lower_of_leads leads listed path
  have ⟨_, lower'⟩ := eq_or_lower_of_leads leads member back
  have first : rank b < rank a := lower.resolve_left differs
  have second : rank a < rank b := lower'.resolve_left differs.symm
  omega

end Ebnf.Source

namespace Lexer

/-- Two rules reach no entangled name in common. -/
def Apart (source : Source) (a b : LexRule) : Prop :=
  ∀ name, a.Reaches source name → b.Reaches source name → ¬ source.Entangled name

namespace Apart

variable {source : Source} {a b : LexRule}

theorem symm (apart : Apart source a b) : Apart source b a :=
  fun name reachesB reachesA => apart name reachesA reachesB

/-- A name that both reach is settled. -/
theorem unreached (apart : Apart source a b) {name : Bytes} (reaches : a.Reaches source name)
    (unsettled : ¬ source.Settled name) : ¬ b.Reaches source name := by
  intro reaches'
  apply unsettled
  intro further onward
  apply apart further
  · exact reaches.further onward
  · exact reaches'.further onward

/-- A rule is apart from all others if the names that it reaches lead to lower ones or to themselves. -/
theorem of_rank (names : List Bytes) (rank : Bytes → Nat)
    (inside : ∀ body ∈ a.body, ∀ n ∈ (Part.expr body).names, n ∈ names)
    (uses : ∀ n ∈ names, ∀ body ∈ source.body? n, ∀ m ∈ body.names.map Located.text, m ∈ names)
    (leads : ∀ n ∈ names, ∀ body ∈ source.body? n, ∀ m ∈ body.leading,
      m ∈ names ∧ (m = n ∨ rank m < rank n)) (b : LexRule) : Apart source a b := by
  rintro name ⟨body, defined, n, listed, reaches⟩ -
  have member : name ∈ names := by
    induction reaches with
    | refl => exact inside body defined n listed
    | tail _ used ih =>
      obtain ⟨body, found, listed⟩ := used
      exact uses _ ih body found _ listed
  exact Source.not_entangled_of_rank leads member

end Apart

/-! ## The lengths that rules match -/

def ruleMatch (source : Source) (rest : Bytes) (rule : LexRule) (memo : Memo) : Nat × Memo :=
  match rule.body with
  | none => (0, memo)
  | some body => matchExpr source [] body ⟨0, rest⟩ memo

/-- Some rules, each with the length that it matches behind those before it. -/
def lengthsFrom (source : Source) (rest : Bytes) : List LexRule → Memo → List (LexRule × Nat)
  | [], _ => []
  | rule :: rules, memo =>
    (rule, (ruleMatch source rest rule memo).1) ::
      lengthsFrom source rest rules (ruleMatch source rest rule memo).2

def lengths (l : Lexer) (rest : Bytes) : List (LexRule × Nat) := lengthsFrom l.source rest l.rules []

def reach (best : Option (LexRule × Nat)) : Nat := (best.map Prod.snd).getD 0

def longer (best : Option (LexRule × Nat)) (found : LexRule × Nat) : Option (LexRule × Nat) :=
  if reach best < found.2 then some found else best

variable {source : Source} {rest : Bytes} {rules rules' : List LexRule} {memo memo' : Memo}

theorem ruleMatch_of_none {rule : LexRule} (bodiless : rule.body = none) :
    ruleMatch source rest rule memo = (0, memo) := by
  simp only [ruleMatch, bodiless]

theorem ruleMatch_of_some {rule : LexRule} {body : Expr} (defined : rule.body = some body) :
    ruleMatch source rest rule memo = matchExpr source [] body ⟨0, rest⟩ memo := by
  simp only [ruleMatch, defined]

theorem bestOf_eq_foldl (best : Option (LexRule × Nat)) :
    bestOf source ⟨0, rest⟩ rules memo best = (lengthsFrom source rest rules memo).foldl longer best := by
  fun_induction bestOf source ⟨0, rest⟩ rules memo best with
  | case1 => rfl
  | case2 rule rules memo best bodiless ih =>
    have kept : longer best (rule, 0) = best := if_neg (Nat.not_lt_zero _)
    rw [lengthsFrom, ruleMatch_of_none bodiless, List.foldl_cons, kept, ih]
  | case3 rule rules memo best body defined n memo' matched found ih =>
    have taken : longer best (rule, n) = some (rule, n) := if_pos found
    rw [lengthsFrom, ruleMatch_of_some defined, matched, List.foldl_cons, taken, ih]
  | case4 rule rules memo best body defined n memo' matched shorter ih =>
    have kept : longer best (rule, n) = best := if_neg shorter
    rw [lengthsFrom, ruleMatch_of_some defined, matched, List.foldl_cons, kept, ih]

/-- The longest match is one of those found, unless the one before is as long as all of them. -/
theorem foldl_longer (found : List (LexRule × Nat)) (best : Option (LexRule × Nat)) :
    (found.foldl longer best = best ∨ ∃ e ∈ found, found.foldl longer best = some e) ∧
      reach best ≤ reach (found.foldl longer best) ∧
      ∀ e ∈ found, e.2 ≤ reach (found.foldl longer best) := by
  induction found generalizing best with
  | nil => exact ⟨.inl rfl, Nat.le_refl _, List.forall_mem_nil _⟩
  | cons e found ih =>
    obtain ⟨chosen, above, others⟩ := ih (longer best e)
    rw [List.foldl_cons, List.forall_mem_cons]
    by_cases isLonger : reach best < e.2
    · have taken : longer best e = some e := if_pos isLonger
      rw [taken] at chosen above others ⊢
      have above : e.2 ≤ reach (found.foldl longer (some e)) := above
      refine ⟨.inr ?_, by omega, above, others⟩
      rcases chosen with same | ⟨other, listed, same⟩
      · exact ⟨e, List.mem_cons_self, same⟩
      · exact ⟨other, List.mem_cons_of_mem e listed, same⟩
    · have kept : longer best e = best := if_neg isLonger
      rw [kept] at chosen above others ⊢
      refine ⟨chosen.imp_right ?_, above, by omega, others⟩
      rintro ⟨other, listed, same⟩
      exact ⟨other, List.mem_cons_of_mem e listed, same⟩

/-- The best match is one with the greatest length. -/
theorem best?_mem_lengths {l : Lexer} {e : LexRule × Nat} (best : l.best? rest = some e) :
    e ∈ l.lengths rest := by
  have ⟨chosen, _⟩ := foldl_longer (l.lengths rest) none
  rw [best?, bestAt?, bestOf_eq_foldl] at best
  rcases chosen with none | ⟨other, listed, same⟩
  · cases best.symm.trans none
  · cases best.symm.trans same
    exact listed

theorem le_reach_best? (l : Lexer) (rest : Bytes) : ∀ e ∈ l.lengths rest, e.2 ≤ reach (l.best? rest) := by
  rw [best?, bestAt?, bestOf_eq_foldl]
  exact (foldl_longer (l.lengths rest) none).2.2

theorem reach_best?_le {l l' : Lexer} (perm : (l.lengths rest).Perm (l'.lengths rest)) :
    reach (l.best? rest) ≤ reach (l'.best? rest) := by
  cases best : l.best? rest with
  | none => exact Nat.zero_le _
  | some e => exact le_reach_best? l' rest e (perm.mem_iff.mp (best?_mem_lengths best))

/-! ## Rules that keep out of each other's way -/

/-- What is remembered at the front of a text is derivable there, and right for settled names. -/
structure Memo.Kept (source : Source) (rest : Bytes) (memo : Memo) : Prop where
  sound : memo.Sound source rest
  settled : memo.Settled source rest

theorem Memo.Kept.nil (source : Source) (rest : Bytes) : Memo.Kept source rest [] where
  sound := Memo.sound_nil source rest
  settled _ _ _ known := nomatch known

theorem Memo.Kept.after_rule (kept : memo.Kept source rest) (rule : LexRule) :
    (ruleMatch source rest rule memo).2.Kept source rest := by
  cases defined : rule.body with
  | none => rwa [ruleMatch_of_none defined]
  | some body =>
    rw [ruleMatch_of_some defined]
    have h := matchExpr_matches source [] body ⟨0, rest⟩ memo
    exact ⟨h.sound rfl kept.sound, (h.settles (Ready.start source rest kept.sound kept.settled _)).1⟩

/-- What is remembered under a name that a rule does not reach stays as it is. -/
theorem find?_ruleMatch {rule : LexRule} {key : Key} (unreached : ¬ rule.Reaches source key.name) :
    (ruleMatch source rest rule memo).2.find? key = memo.find? key := by
  cases defined : rule.body with
  | none => rw [ruleMatch_of_none defined]
  | some body =>
    rw [ruleMatch_of_some defined]
    apply (matchExpr_matches source [] body ⟨0, rest⟩ memo).find?_of_unreached
    exact fun n listed reaches => unreached ⟨body, defined, n, listed, reaches⟩

/-- A rule matches as much as before if the same is remembered of all that it reaches. -/
theorem ruleMatch_agree {S : Bytes → Prop} {rule : LexRule}
    (closed : ∀ a b, S a → source.Uses a b → S b) (inside : ∀ name, rule.Reaches source name → S name)
    (kept : memo.Kept source rest) (kept' : memo'.Kept source rest)
    (agree : Memo.Agree source S memo memo') :
    (ruleMatch source rest rule memo).1 = (ruleMatch source rest rule memo').1 ∧
      Memo.Agree source S (ruleMatch source rest rule memo).2 (ruleMatch source rest rule memo').2 := by
  cases defined : rule.body with
  | none =>
    rw [ruleMatch_of_none defined, ruleMatch_of_none defined]
    exact ⟨rfl, agree⟩
  | some body =>
    rw [ruleMatch_of_some defined, ruleMatch_of_some defined]
    apply (matchExpr_matches source [] body ⟨0, rest⟩ memo).agree closed
      (matchExpr_matches source [] body ⟨0, rest⟩ memo')
      (Ready.start source rest kept.sound kept.settled _)
      (Ready.start source rest kept'.sound kept'.settled _) _ agree
    exact fun n listed => inside n ⟨body, defined, n, listed, .refl⟩

def Memo.AgreeAll (source : Source) (memo memo' : Memo) : Prop := Memo.Agree source (fun _ => True) memo memo'

theorem Memo.AgreeAll.symm (agree : Memo.AgreeAll source memo memo') : Memo.AgreeAll source memo' memo :=
  fun key inside unsettled => (agree key inside unsettled).symm

theorem ruleMatch_agreeAll (kept : memo.Kept source rest) (kept' : memo'.Kept source rest)
    (agree : Memo.AgreeAll source memo memo') (rule : LexRule) :
    (ruleMatch source rest rule memo).1 = (ruleMatch source rest rule memo').1 ∧
      Memo.AgreeAll source (ruleMatch source rest rule memo).2 (ruleMatch source rest rule memo').2 :=
  ruleMatch_agree (fun _ _ _ _ => trivial) (fun _ _ => trivial) kept kept' agree

theorem lengthsFrom_congr (kept : memo.Kept source rest) (kept' : memo'.Kept source rest)
    (agree : Memo.AgreeAll source memo memo') (rules : List LexRule) :
    lengthsFrom source rest rules memo = lengthsFrom source rest rules memo' := by
  induction rules generalizing memo memo' with
  | nil => rfl
  | cons rule rules ih =>
    have ⟨same, agree⟩ := ruleMatch_agreeAll kept kept' agree rule
    rw [lengthsFrom, lengthsFrom, same, ih (kept.after_rule rule) (kept'.after_rule rule) agree]

/-- What one rule takes over is not touched by a rule apart from it. -/
theorem agree_after_apart {a b : LexRule} (apart : Apart source a b)
    (agree : Memo.AgreeAll source memo memo') :
    Memo.Agree source (b.Reaches source) memo (ruleMatch source rest a memo').2 := by
  intro key reached unsettled
  rw [find?_ruleMatch (apart.symm.unreached reached unsettled)]
  exact agree key trivial unsettled

/-- Two rules apart from each other match equally much in either order, and the same is remembered behind
both. -/
theorem ruleMatch_comm {a b : LexRule} (apart : Apart source a b) (kept : memo.Kept source rest)
    (kept' : memo'.Kept source rest) (agree : Memo.AgreeAll source memo memo') :
    let one := ruleMatch source rest b memo
    let two := ruleMatch source rest a one.2
    let one' := ruleMatch source rest a memo'
    let two' := ruleMatch source rest b one'.2
    one.1 = two'.1 ∧ two.1 = one'.1 ∧ Memo.AgreeAll source two.2 two'.2 := by
  intro one two one' two'
  have ⟨sameB, agreeB⟩ : one.1 = two'.1 ∧ Memo.Agree source (b.Reaches source) one.2 two'.2 :=
    ruleMatch_agree b.reaches_closed (fun _ h => h) kept (kept'.after_rule a) (agree_after_apart apart agree)
  have ⟨sameA, agreeA⟩ : one'.1 = two.1 ∧ Memo.Agree source (a.Reaches source) one'.2 two.2 :=
    ruleMatch_agree a.reaches_closed (fun _ h => h) kept' (kept.after_rule b)
      (agree_after_apart apart.symm (Memo.AgreeAll.symm agree))
  refine ⟨sameB, sameA.symm, fun key _ unsettled => ?_⟩
  -- At most one of the rules reaches the name, so the other one leaves the entry as it finds it.
  by_cases reachedA : a.Reaches source key.name
  · calc
      two.2.find? key = one'.2.find? key := (agreeA key reachedA unsettled).symm
      _ = two'.2.find? key := (find?_ruleMatch (apart.unreached reachedA unsettled)).symm
  have quiet : two.2.find? key = one.2.find? key := find?_ruleMatch reachedA
  by_cases reachedB : b.Reaches source key.name
  · exact quiet.trans (agreeB key reachedB unsettled)
  · calc
      two.2.find? key = one.2.find? key := quiet
      _ = memo.find? key := find?_ruleMatch reachedB
      _ = memo'.find? key := agree key trivial unsettled
      _ = one'.2.find? key := (find?_ruleMatch reachedA).symm
      _ = two'.2.find? key := (find?_ruleMatch reachedB).symm

/-! ## Reordered rules -/

/-- Some rules in another order, in which those that are not apart from each other stand as before. -/
inductive Shuffled (source : Source) : List LexRule → List LexRule → Prop
  | refl (rules : List LexRule) : Shuffled source rules rules
  | cons (rule : LexRule) {rules rules' : List LexRule} (h : Shuffled source rules rules') :
    Shuffled source (rule :: rules) (rule :: rules')
  | swap {a b : LexRule} (apart : Apart source a b) (rules : List LexRule) :
    Shuffled source (b :: a :: rules) (a :: b :: rules)
  | trans {rules middle rules' : List LexRule} (h : Shuffled source rules middle)
    (h' : Shuffled source middle rules') : Shuffled source rules rules'

namespace Shuffled

theorem perm (h : Shuffled source rules rules') : rules.Perm rules' := by
  induction h with
  | refl rules => exact .refl rules
  | cons rule h ih => exact ih.cons rule
  | swap apart rules => exact .swap _ _ rules
  | trans h h' ih ih' => exact ih.trans ih'

/-- Any order will do if all rules are apart from each other. -/
theorem of_perm (perm : rules.Perm rules') (apart : rules.Pairwise (Apart source)) :
    Shuffled source rules rules' := by
  induction perm with
  | nil => exact .refl []
  | cons rule perm ih => exact .cons rule (ih (List.pairwise_cons.mp apart).2)
  | swap a b rules =>
    have first : Apart source b a := (List.pairwise_cons.mp apart).1 a List.mem_cons_self
    exact .swap first.symm rules
  | trans perm perm' ih ih' =>
    exact .trans (ih apart) (ih' (perm.pairwise apart fun h => h.symm))

theorem append_left (front : List LexRule) (h : Shuffled source rules rules') :
    Shuffled source (front ++ rules) (front ++ rules') := by
  induction front with
  | nil => exact h
  | cons rule front ih => exact .cons rule ih

theorem append_right (h : Shuffled source rules rules') (back : List LexRule) :
    Shuffled source (rules ++ back) (rules' ++ back) := by
  induction h with
  | refl rules => exact .refl _
  | cons rule h ih => exact .cons rule ih
  | swap apart rules => exact .swap apart _
  | trans h h' ih ih' => exact .trans ih ih'

theorem filter (h : Shuffled source rules rules') (p : LexRule → Bool) :
    Shuffled source (rules.filter p) (rules'.filter p) := by
  induction h with
  | refl rules => exact .refl _
  | cons rule h ih =>
    cases kept : p rule with
    | true =>
      rw [List.filter_cons_of_pos kept, List.filter_cons_of_pos kept]
      exact .cons rule ih
    | false =>
      have dropped : ¬ p rule = true := by simp [kept]
      rwa [List.filter_cons_of_neg dropped, List.filter_cons_of_neg dropped]
  | @swap a b apart rules =>
    cases keptA : p a <;> cases keptB : p b <;> simp only [List.filter_cons, keptA, keptB]
    case true.true => exact .swap apart _
    all_goals exact .refl _
  | trans h h' ih ih' => exact .trans ih ih'

/-- Literal rules still come first. -/
theorem make (h : Shuffled source rules rules') (file : Bytes) :
    Shuffled source (Lexer.make source rules file).rules (Lexer.make source rules' file).rules :=
  .trans (append_right (h.filter _) _) (append_left _ (h.filter _))

/-- The rules of a shuffled list match as much as before. -/
theorem lengthsFrom_perm (h : Shuffled source rules rules') (kept : memo.Kept source rest)
    (kept' : memo'.Kept source rest) (agree : Memo.AgreeAll source memo memo') :
    (lengthsFrom source rest rules memo).Perm (lengthsFrom source rest rules' memo') := by
  induction h generalizing memo memo' with
  | refl rules => rw [lengthsFrom_congr kept kept' agree rules]
  | cons rule h ih =>
    have ⟨same, agree⟩ := ruleMatch_agreeAll kept kept' agree rule
    rw [lengthsFrom, lengthsFrom, same]
    exact (ih (kept.after_rule rule) (kept'.after_rule rule) agree).cons _
  | @swap a b apart rules =>
    obtain ⟨sameB, sameA, agree⟩ := ruleMatch_comm apart kept kept' agree
    simp only [lengthsFrom]
    rw [sameB, sameA, lengthsFrom_congr ((kept.after_rule b).after_rule a)
      ((kept'.after_rule a).after_rule b) agree]
    exact .swap _ _ _
  | trans h h' ih ih' =>
    -- What is remembered for the list in the middle is free to choose.
    exact (ih kept kept fun _ _ _ => rfl).trans (ih' kept kept' agree)

theorem lengths_make_perm (h : Shuffled source rules rules') (file rest : Bytes) :
    ((Lexer.make source rules file).lengths rest).Perm ((Lexer.make source rules' file).lengths rest) :=
  (h.make file).lengthsFrom_perm (.nil source rest) (.nil source rest) fun _ _ _ => rfl

end Shuffled

/-! ## Tokens of reordered rules -/

def ruleKind (rule : LexRule) : Symbol × Int :=
  (rule.symbol, if rule.isHidden then Token.hiddenChannel else Token.defaultChannel)

/-- A rule matches some bytes at the front of a text, and none matches more. -/
structure Longest (l : Lexer) (rest : Bytes) (rule : LexRule) (n : Nat) : Prop where
  found : (rule, n) ∈ l.lengths rest
  longest : ∀ other ∈ l.lengths rest, other.2 ≤ n

/-- Two tokens with the same place and text. Only if two rules match equally much there, and none matches
more, may one be of the one rule and one of the other. -/
structure Alike (l : Lexer) (text : Bytes) (t t' : Token) : Prop where
  index_eq : t'.index = t.index
  text_eq : t'.text = t.text
  start_eq : t'.start = t.start
  stop_eq : t'.stop = t.stop
  line_eq : t'.line = t.line
  column_eq : t'.column = t.column
  tied : (t'.symbol, t'.channel) = (t.symbol, t.channel) ∨ ∃ rule rule' n,
    l.Longest (text.drop t.start.toNat) rule n ∧ l.Longest (text.drop t.start.toNat) rule' n ∧
      (t.symbol, t.channel) = ruleKind rule ∧ (t'.symbol, t'.channel) = ruleKind rule'

theorem longest_of_best? {l : Lexer} {rule : LexRule} {n : Nat} (best : l.best? rest = some (rule, n)) :
    l.Longest rest rule n where
  found := best?_mem_lengths best
  longest other listed := by simpa [best, reach] using le_reach_best? l rest other listed

theorem Longest.of_perm {l l' : Lexer} (perm : (l.lengths rest).Perm (l'.lengths rest)) {rule : LexRule}
    {n : Nat} (h : l'.Longest rest rule n) : l.Longest rest rule n where
  found := perm.mem_iff.mpr h.found
  longest other listed := h.longest other (perm.mem_iff.mp listed)

/-- Two lexers whose rules match equally much read the same bytes. -/
theorem Reads.alike {l l' : Lexer} {c : Cursor} {n n' : Nat} {symbol symbol' : Symbol}
    {covered covered' : Bytes} {channel channel' : Int}
    (perm : (l.lengths c.rest).Perm (l'.lengths c.rest)) (h : l.Reads c n symbol covered channel)
    (h' : l'.Reads c n' symbol' covered' channel') :
    n' = n ∧ covered' = covered ∧ ((symbol', channel') = (symbol, channel) ∨ ∃ rule rule',
      l.Longest c.rest rule n ∧ l.Longest c.rest rule' n ∧
        (symbol, channel) = ruleKind rule ∧ (symbol', channel') = ruleKind rule') := by
  have same : reach (l.best? c.rest) = reach (l'.best? c.rest) :=
    Nat.le_antisymm (reach_best?_le perm) (reach_best?_le perm.symm)
  cases h with
  | finish empty =>
    cases h' with
    | finish => exact ⟨rfl, rfl, .inl rfl⟩
    | stray front => cases empty.symm.trans front
    | matched more => exact absurd empty more
  | stray front unmatched =>
    cases h' with
    | finish empty => cases empty.symm.trans front
    | stray front' =>
      cases front.symm.trans front'
      exact ⟨rfl, rfl, .inl rfl⟩
    | matched more best =>
      have positive := best?_pos best
      rw [unmatched, best] at same
      exact absurd same (Nat.ne_of_lt positive)
  | @matched rule n more best =>
    cases h' with
    | finish empty => exact absurd empty more
    | stray front unmatched =>
      have positive := best?_pos best
      rw [unmatched, best] at same
      exact absurd same (Nat.ne_of_gt positive)
    | @matched rule' n' more' best' =>
      have lengths : n = n' := by simpa [best, best', reach] using same
      cases lengths
      exact ⟨rfl, rfl, .inr ⟨rule, rule', longest_of_best? best, (longest_of_best? best').of_perm perm,
        rfl, rfl⟩⟩

theorem next_alike {l l' : Lexer} {text : Bytes} {c : Cursor} (here : c.At text)
    (perm : ∀ rest, (l.lengths rest).Perm (l'.lengths rest)) :
    l.Alike text (l.next c).1 (l'.next c).1 ∧ (l'.next c).2 = (l.next c).2 := by
  obtain ⟨n, symbol, covered, channel, reads, next⟩ := l.next_reads c
  obtain ⟨n', symbol', covered', channel', reads', next'⟩ := l'.next_reads c
  obtain ⟨rfl, rfl, tied⟩ := reads.alike (perm c.rest) reads'
  rw [next, next']
  refine ⟨⟨rfl, rfl, rfl, rfl, rfl, rfl, tied.imp_right ?_⟩, rfl⟩
  rintro ⟨rule, rule', tie⟩
  refine ⟨rule, rule', n', ?_⟩
  rw [here.rest_eq] at tie
  exact tie

/-- All tokens of lexers whose rules match equally much are alike. -/
theorem tokensFrom_alike {l l' : Lexer} {text : Bytes} {c : Cursor} (here : c.At text)
    (perm : ∀ rest, (l.lengths rest).Perm (l'.lengths rest)) :
    List.Forall₂ (l.Alike text) (l.tokensFrom c).1 (l'.tokensFrom c).1 := by
  induction c using Cursor.induction l with
  | finish c empty =>
    rw [tokensFrom_of_eq_nil empty, tokensFrom_of_eq_nil empty]
    exact .cons (next_alike here perm).1 .nil
  | step c more ih =>
    have ⟨alike, cursor⟩ := next_alike here perm
    rw [tokensFrom_of_ne_nil more, tokensFrom_of_ne_nil more, cursor]
    exact .cons alike (ih (l.at_next here))

/-- Rules in another order give tokens with the same boundaries, and a token of another type or channel only
where the two rules match equally much, as long as rules that reach an entangled name in common keep their
order; with no such rules it may be any order. -/
theorem reordered_tokens_alike (source : Source) (rules rules' : List LexRule) (file text : Bytes) :
    let l := make source rules file
    let l' := make source rules' file
    (Shuffled source rules rules' →
      rules.Perm rules' ∧ List.Forall₂ (l.Alike text) (l.tokenize text).1 (l'.tokenize text).1) ∧
    (rules.Perm rules' → rules.Pairwise (Apart source) →
      List.Forall₂ (l.Alike text) (l.tokenize text).1 (l'.tokenize text).1) := by
  intro l l'
  have alike (shuffled : Shuffled source rules rules') :
      List.Forall₂ (l.Alike text) (l.tokenize text).1 (l'.tokenize text).1 :=
    tokensFrom_alike (Cursor.At.start text) (shuffled.lengths_make_perm file)
  exact ⟨fun shuffled => ⟨shuffled.perm, alike shuffled⟩, fun perm apart => alike (.of_perm perm apart)⟩

/-- Two names of which each may come first in the other, and one that may come first in itself. -/
def tangled : Source :=
  let either (name : Bytes) (next other : Bytes) : Expr :=
    .alternative [.sequence [.name (.unplaced name), .literal (.unplaced next)], .literal (.unplaced other)]
  [⟨.unplaced "A", some (either "B" "x" "a")⟩, ⟨.unplaced "B", some (either "A" "y" "b")⟩,
    ⟨.unplaced "N", some (either "N" "1" "1")⟩, ⟨.unplaced "M", some (.name (.unplaced "N"))⟩]

def tangledRule (name : Bytes) (symbol : Symbol) : LexRule :=
  ⟨name, symbol, tangled.body? name, false, false⟩

/-- The only name in `M`, and the only one that comes first in that, is one that comes first in itself. -/
theorem tangled_apart (other : LexRule) : Apart tangled (tangledRule "M" 4) other :=
  .of_rank (["N"] : List Bytes) (fun _ => 0) (by decide +kernel) (by decide +kernel) (by decide +kernel) other

theorem reordered_tokens_alike_tangled :
    let rules := [tangledRule "A" 1, tangledRule "B" 2, tangledRule "N" 3, tangledRule "M" 4]
    let rules' := [tangledRule "M" 4, tangledRule "A" 1, tangledRule "B" 2, tangledRule "N" 3]
    let l := make tangled rules ""
    let l' := make tangled rules' ""
    Shuffled tangled rules rules' ∧
      (l.tokenize "ayx111").1.map (fun t => (t.symbol, t.start, t.stop)) =
        [(1, 0, 3), (3, 3, 5), (3, 5, 6), (-1, 6, 6)] ∧
      (l'.tokenize "ayx111").1.map (fun t => (t.symbol, t.start, t.stop)) =
        [(1, 0, 3), (3, 3, 5), (4, 5, 6), (-1, 6, 6)] ∧
      List.Forall₂ (l.Alike "ayx111") (l.tokenize "ayx111").1 (l'.tokenize "ayx111").1 ∧
      [tangledRule "N" 3, tangledRule "M" 4].Pairwise (Apart tangled) ∧
      List.Forall₂ ((make tangled [tangledRule "N" 3, tangledRule "M" 4] "").Alike "111")
        ((make tangled [tangledRule "N" 3, tangledRule "M" 4] "").tokenize "111").1
        ((make tangled [tangledRule "M" 4, tangledRule "N" 3] "").tokenize "111").1 := by
  intro rules rules' l l'
  have shuffled : Shuffled tangled rules rules' :=
    .trans (.cons _ (.cons _ (.swap (tangled_apart _) []))) (.trans (.cons _ (.swap (tangled_apart _) _))
      (.swap (tangled_apart _) _))
  have apart : [tangledRule "N" 3, tangledRule "M" 4].Pairwise (Apart tangled) :=
    List.pairwise_pair.mpr (tangled_apart _).symm
  exact ⟨shuffled, by decide +kernel, by decide +kernel,
    ((reordered_tokens_alike tangled rules rules' "" "ayx111").1 shuffled).2, apart,
    (reordered_tokens_alike tangled _ _ "" "111").2 (.swap _ _ []) apart⟩

/-- Exchanging two rules with entangled names moves a boundary. -/
theorem exchanged_rules_cut_differently :
    let rules := [tangledRule "A" 1, tangledRule "B" 2]
    let rules' := [tangledRule "B" 2, tangledRule "A" 1]
    rules.Perm rules' ∧
      ((make tangled rules "").tokenize "ayx").1.map (fun t => (t.start, t.stop)) = [(0, 3), (3, 3)] ∧
      ((make tangled rules' "").tokenize "ayx").1.map (fun t => (t.start, t.stop)) =
        [(0, 2), (2, 3), (3, 3)] :=
  ⟨.swap _ _ [], by decide +kernel, by decide +kernel⟩

end Lexer

end GrammarCompletion
