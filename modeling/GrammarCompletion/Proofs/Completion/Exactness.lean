import GrammarCompletion.Proofs.Completion.Completeness
import GrammarCompletion.Proofs.Token.Window

/-!
# Exactly what can follow

When the outermost rule has been left, nothing rests on a seed any more. What is closed then holds
every run over the tokens before the caret, so the candidates are all tokens that can follow.
-/

namespace GrammarCompletion

open Automaton

namespace Automaton

/-- A descent is a path on its outermost level, or goes on from there into a call that stays open. -/
theorem Descent.outermost {a : Automaton} {holds : PredicateCall → Prop} {n k : Nat}
    {u : List Symbol} {stack : List Nat} (h : Descent a holds n u k stack) :
    (stack = [] ∧ Path a holds n u k) ∨ ∃ (m rule follow : Nat) (r : Rule) (v w : List Symbol) (inner : List Nat),
      stack = inner ++ [follow] ∧ u = v ++ w ∧ Path a holds n v m ∧
      .call rule follow ∈ a.transitionsAt m ∧ a.rules[rule]? = some r ∧
      Descent a holds r.start w k inner := by
  induction h with
  | level path => exact .inl ⟨rfl, path⟩
  | @enter m rule follow k r u v stack _ hc hr path ih =>
    rcases ih with ⟨rfl, first⟩ |
      ⟨m', rule', follow', r', u', v', inner, rfl, rfl, first, hc', hr', rest⟩
    · exact .inr ⟨m, rule, follow, r, u, v, [], rfl, rfl, first, hc, hr, .level path⟩
    · refine .inr ?_
      exact ⟨m', rule', follow', r', u', v' ++ v, follow :: inner, rfl, List.append_assoc _ _ _,
        first, hc', hr', .enter rest hc hr path⟩

/-- A descent that consumes nothing from the start of a rule has entered the rule where it ends. -/
theorem Descent.innermost {a : Automaton} {holds : PredicateCall → Prop} {rule : Nat} {r : Rule}
    {k : Nat} {u : List Symbol} {stack : List Nat} (hr : a.rules[rule]? = some r)
    (h : Descent a holds r.start u k stack) (hu : u = []) :
    ∃ (rule' : Nat) (r' : Rule), a.rules[rule']? = some r' ∧
      Run a holds ⟨r.start, []⟩ [] ⟨r'.start, stack⟩ ∧ Path a holds r'.start [] k := by
  cases h with
  | level path => exact ⟨rule, r, hr, .refl _, hu ▸ path⟩
  | enter upper hc hr' path =>
    obtain ⟨rfl, rfl⟩ := List.append_eq_nil_iff.mp hu
    exact ⟨_, _, hr', upper.run.trans (.single (.call hc hr')), path⟩

end Automaton

namespace Request

variable {q : Request} {s : Session} {e : RuleEntry} {ends : List Nat}

theorem Reads.split {i k : Nat} {u v : List Symbol} (h : q.Reads i (u ++ v) k) :
    ∃ j, q.Reads i u j ∧ q.Reads j v k := by
  have length := h.length
  rw [List.length_append] at length
  have rest : q.word.drop (i + u.length) = v ++ q.word.drop k := by
    rw [← List.drop_drop, h.1, List.append_assoc, List.drop_left]
  refine ⟨i + u.length, ⟨?_, by omega, by have := h.2.2; omega⟩, rest, by omega, h.2.2⟩
  rw [rest, h.1, List.append_assoc]

theorem Reads.first {i j : Nat} {x : Symbol} {u : List Symbol} (h : q.Reads i (x :: u) j) :
    q.atCaret i = false ∧ q.symbolAt i = x ∧ q.Reads (i + 1) u j := by
  have length := h.length
  rw [List.length_cons] at length
  have before : i < q.word.length := by
    have := h.2.2
    omega
  have caret : q.atCaret i = false := by
    rw [← Bool.not_eq_true, atCaret_iff]
    omega
  have token := (Reads.token caret).1
  rw [h.1, List.cons_append, List.singleton_append, List.cons.injEq] at token
  exact ⟨caret, token.1.symm, token.2.symm, by omega, h.2.2⟩

theorem Reads.lt_size {i j : Nat} {u : List Symbol} (nonempty : 0 < q.window.size)
    (h : q.Reads i u j) : i < q.window.size ∧ j < q.window.size := by
  have := h.2
  rw [length_word] at this
  omega

/-! ## Paths and runs through what is known -/

section
variable {reach : List Nat → Visit → Prop} {r : Rule} {u : List Symbol}

theorem Thorough.offers_first (hq : q.Thorough) {i j : Nat} {x : Symbol} {c d : Config}
    (reads : q.Reads i (x :: u) j)
    (run : Run q.engine.automaton (fun _ => True) c (x :: u) d) :
    ∃ n stack, Run q.engine.automaton (fun _ => True) c [] ⟨n, stack⟩ ∧
      q.engine.automaton.Offers n (q.symbolAt i) := by
  obtain ⟨n, m, stack, before, move, -⟩ := run.first
  rw [reads.first.2.1]
  exact ⟨n, stack, before, offers_of_move hq.plain move⟩

/-- A rule that the session has an answer for ends where a path through it does, if the visits of
the rule hold the path. -/
theorem Answered.mem_ends (hq : q.Thorough) (hs : q.Knows [] s reach)
    (nonempty : 0 < q.window.size) (h : q.Answered [] s e ends reach) {stop j : Nat}
    (hr : q.engine.automaton.rules[e.rule]? = some r)
    (path : Path q.engine.automaton (fun _ => True) r.start u stop)
    (hstop : q.engine.automaton.IsStop stop) (reads : q.Reads e.index u j)
    (inner : ∀ V ends, q.Explored [] s e V ends reach → V ⟨r.start, e.index⟩ → V ⟨stop, j⟩) :
    j ∈ ends := by
  have at_stop := hq.wellFormed.eq_stop hr path hstop
  cases h with
  | known hm =>
    obtain ⟨⟨r', V, hr', hstart, explored⟩, -⟩ := hs.memo e ends hm
    cases hr.symm.trans hr'
    exact explored.stops _ (inner V ends explored hstart) (reads.lt_size nonempty).2 hstop
  | again hf => cases hf
  | missing hr' => cases hr.symm.trans hr'
  | caret hr' hc _ hend =>
    cases hr.symm.trans hr'
    obtain rfl := reads.eq_nil hc
    have same : j = e.index := by simpa using reads.length.symm
    exact same ▸ hend (at_stop ▸ path)
  | pruned hr' hc hfirst hend =>
    cases hr.symm.trans hr'
    cases u with
    | nil => exact absurd (at_stop ▸ path) hend
    | cons x u =>
      obtain ⟨n, stack, before, offers⟩ := hq.offers_first reads (path.run [])
      exact absurd offers (hfirst n stack before)

theorem Explored.path (hq : q.Thorough) (hs : q.Knows [] s reach) (nonempty : 0 < q.window.size)
    {n m i j : Nat} {V : Visit → Prop}
    (path : Path q.engine.automaton (fun _ => True) n u m) (h : q.Explored [] s e V ends reach)
    (hn : V ⟨n, i⟩) (reads : q.Reads i u j) : V ⟨m, j⟩ := by
  induction path generalizing e V ends i j with
  | refl n =>
    have same : i = j := by simpa using reads.length
    exact same ▸ hn
  | @move n m k u v hm _ ih =>
    have follow := h.next _ hn (reads.lt_size nonempty).1
    cases hm with
    | epsilon ht => exact ih h (follow _ ht) reads
    | predicate ht | wildcard ht => exact (hq.plain n _ ht).elim
    | @symbol _ t label x ht htarget hl hx =>
      obtain ⟨caret, token, rest⟩ := reads.first
      obtain ⟨target, y, rfl, rfl⟩ := eq_atom_of_symbolLabel (hq.plain n t ht) hl
      cases htarget
      cases IntervalSet.mem_singleton.mp hx
      have followed := follow _ ht
      simp only [Followed, caret, Bool.false_eq_true, if_false] at followed
      exact ih h (followed token) rest
  | @call n rule follow stop k r u v hc hr body hstop _ ih ih' =>
    obtain ⟨l, inside, behind⟩ := reads.split
    obtain ⟨ends', answered, follows⟩ := h.next _ hn (reads.lt_size nonempty).1 _ hc
    have found : l ∈ ends' := answered.mem_ends hq hs nonempty hr body hstop inside
      fun V ends explored hstart => ih explored hstart inside
    exact ih' h (follows l found) behind

/-- A run over the tokens from an entry to the caret has entered a last rule that is still open.
What it comes to in this rule is noted for the place where the rule was entered. -/
theorem Answered.noted (hq : q.Thorough) (hs : q.Knows [] s reach) (nonempty : 0 < q.window.size)
    (h : q.Answered [] s e ends reach) {n target : Nat} {stack : List Nat} {x : Symbol}
    (hr : q.engine.automaton.rules[e.rule]? = some r)
    (descent : Descent q.engine.automaton (fun _ => True) r.start u n stack)
    (reads : q.Reads e.index u q.word.length)
    (ht : .atom target x ∈ q.engine.automaton.transitionsAt n) :
    ∃ (rule : Nat) (r' : Rule) (i : Nat) (v w : List Symbol),
      q.engine.automaton.rules[rule]? = some r' ∧
      Run q.engine.automaton (fun _ => True) ⟨r.start, []⟩ v ⟨r'.start, stack⟩ ∧
      q.Reads e.index v i ∧ Path q.engine.automaton (fun _ => True) r'.start w n ∧
      q.Reads i w q.word.length ∧ q.Noted reach s.candidates ⟨rule, i⟩ target x := by
  induction hdepth : stack.length using Nat.strongRecOn generalizing e ends r u stack with
  | _ depth ih =>
    cases h with
    | known hm =>
      obtain ⟨⟨r', V, hr', hstart, explored⟩, -⟩ := hs.memo e ends hm
      cases hr.symm.trans hr'
      rcases descent.outermost with ⟨rfl, path⟩ |
        ⟨m, rule, follow, r', v, w, inner, rfl, rfl, path, hc, hr', rest⟩
      · have visited := explored.path hq hs nonempty path hstart reads
        have followed := explored.next _ visited (reads.lt_size nonempty).2 _ ht
        simp only [Followed, atCaret_iff.mpr (Nat.le_refl _), if_true] at followed
        have inside := Nat.le_trans reads.2.1 reads.2.2
        exact ⟨e.rule, r, e.index, [], u, hr, .refl _, .refl inside, path, reads, followed⟩
      · obtain ⟨j, above, below⟩ := reads.split
        have visited := explored.path hq hs nonempty path hstart above
        obtain ⟨ends', answered, -⟩ := explored.next _ visited (above.lt_size nonempty).2 _ hc
        obtain ⟨rule', r'', i, v', w', hr'', run, reads', path', reads'', noted⟩ :=
          ih inner.length (by simp [← hdepth]) answered hr' rest below rfl
        refine ⟨rule', r'', i, v ++ v', w', hr'', ?_, above.trans reads', path', reads'', noted⟩
        exact (path.run []).trans (.step (.call hc hr') (run.lift [follow]))
    | again hf => cases hf
    | missing hr' => cases hr.symm.trans hr'
    | caret hr' hc hfirst _ =>
      cases hr.symm.trans hr'
      obtain rfl := reads.eq_nil hc
      obtain ⟨rule, r', hr', run, path⟩ := descent.innermost hr rfl
      have inside := Nat.le_trans reads.2.1 reads.2.2
      exact ⟨rule, r', e.index, [], [], hr', run, .refl inside, path, reads,
        hfirst rule r' stack n target x hr' run path ht⟩
    | pruned hr' hc hfirst _ =>
      cases hr.symm.trans hr'
      cases u with
      | nil =>
        have length := reads.length
        rw [← Bool.not_eq_true, atCaret_iff] at hc
        simp only [List.length_nil] at length
        omega
      | cons y u =>
        obtain ⟨n', stack', before, offers⟩ := hq.offers_first reads descent.run
        exact absurd offers (hfirst n' stack' before)

/-- A search from the first token ends. What it leaves is real, and whatever a run over the tokens
before the caret comes to is noted for the place where the run has entered its last rule. -/
theorem Thorough.search (hq : q.Thorough) (nonempty : 0 < q.window.size) {cache : Cache}
    (hc : cache.Faithful q.engine.automaton q.engine.identity (fun _ => True)) {rule : Nat}
    (hr : q.engine.automaton.rules[rule]? = some r) :
    ∃ ends s, q.enterRule [] rule 0 { cache := cache } = .ok ends s ∧
      q.Sound (fun _ => True) r.start s ∧
      ∀ n stack target x,
        Run q.engine.automaton (fun _ => True) ⟨r.start, []⟩ q.word ⟨n, stack⟩ →
        .atom target x ∈ q.engine.automaton.transitionsAt n →
        ∃ (rule' : Nat) (r' : Rule) (i : Nat) (v w : List Symbol),
          q.engine.automaton.rules[rule']? = some r' ∧
          Run q.engine.automaton (fun _ => True) ⟨r.start, []⟩ v ⟨r'.start, stack⟩ ∧
          q.Reads 0 v i ∧ Path q.engine.automaton (fun _ => True) r'.start w n ∧
          q.Reads i w q.word.length ∧
          q.Noted (q.Reaches (.only fun _ => True) r.start) s.candidates ⟨rule', i⟩ target x := by
  have ready : q.EnterReady [] ⟨rule, 0⟩ { cache := cache }
      (q.Reaches (.only fun _ => True) r.start) := by
    refine ⟨⟨hc, by simp, by simp⟩, Nat.zero_le _, fun r' hr' => ?_⟩
    cases hr.symm.trans hr'
    exact reaches_start hq.regular.trusts hr
  obtain ⟨ends, s, hs, complete⟩ :=
    (enterRule_notes hq (traces_reaches hq.regular.trusts r.start) ready).exists_ok
  refine ⟨ends, s, hs, sound_of_enterRule hq.regular hc hr hs, fun n stack target x run ht => ?_⟩
  have reads : q.Reads 0 q.word q.word.length := ⟨by simp, Nat.zero_le _, Nat.le_refl _⟩
  exact complete.answered.noted hq complete.knows nonempty hr (run_iff_descent.mp run) reads ht

theorem Answered.recorded (hq : q.Exhaustive) (hs : q.Knows [] s) (nonempty : 0 < q.window.size)
    (h : q.Answered [] s e ends) {n : Nat} {stack : List Nat} {x : Symbol}
    (hr : q.engine.automaton.rules[e.rule]? = some r)
    (descent : Descent q.engine.automaton (fun _ => True) r.start u n stack)
    (reads : q.Reads e.index u q.word.length) (hx : q.engine.automaton.Offers n x) :
    q.Recorded s x := by
  intro _ kept
  obtain ⟨target, ht⟩ := atom_of_offers hq.plain hx
  obtain ⟨rule, r', i, v, w, -, -, -, -, -, noted⟩ :=
    h.noted hq.toThorough hs nonempty hr descent reads ht
  obtain ⟨rules, following, accounts, -, -⟩ := noted
  simp only [Candidates.Accounts, hq.noPreferred, Candidates.outermost?_nil] at accounts
  obtain ⟨hint, found, -⟩ := accounts kept
  rw [Std.TreeMap.mem_iff_isSome_getElem?, found]
  rfl

end

end Request

namespace Grammar

variable {name text start : Bytes} {skip : List Bytes} {g : Grammar}

theorem thorough (h : parse name text start skip = .ok g) (small : text.length < 2 ^ 63)
    (tame : ∀ rule, g.automaton.Nullable (fun _ => True) rule →
      ¬ g.automaton.Reenters (fun _ => True) rule)
    {engine : Engine} (ha : engine.automaton = g.automaton) (window : Array Token) :
    Request.Thorough ⟨engine, window, none⟩ where
  wellFormed := ha ▸ (filled h).wellFormed
  plain := ha ▸ (filled h).plain
  bounds := ha ▸ fun _ _ hx => bounds_of_offers h small hx
  tame := ha ▸ tame
  unfailing := unfailing_none

theorem exhaustive (h : parse name text start skip = .ok g) (small : text.length < 2 ^ 63)
    (tame : ∀ rule, g.automaton.Nullable (fun _ => True) rule →
      ¬ g.automaton.Reenters (fun _ => True) rule)
    {engine : Engine} (ha : engine.automaton = g.automaton) (hp : engine.preferred = [])
    (window : Array Token) : Request.Exhaustive ⟨engine, window, none⟩ where
  toThorough := thorough h small tame ha window
  noPreferred := hp

/-- With a grammar in which no rule both ends and enters itself again without input, the candidate
tokens are exactly those not ignored that can follow: that are offered where a run from the start
of the context's rule over the tokens before the caret can come to. The text is one whose token
types fit 64 bits, and the cache is as good afterwards as it was before. -/
theorem candidates_iff_offered (h : parse name text start skip = .ok g)
    (small : text.length < 2 ^ 63)
    (tame : ∀ rule, g.automaton.Nullable (fun _ => True) rule →
      ¬ g.automaton.Reenters (fun _ => True) rule)
    {engine : Engine} (ha : engine.automaton = g.automaton) (hp : engine.preferred = [])
    {cache : Cache} (hc : cache.Faithful g.automaton engine.identity (fun _ => True))
    {stream : TokenStream} {caret : Int} {context : RuleContext} {r : Rule} {window : List Token}
    (hr : g.automaton.rule? context.rule = some r)
    (hw : stream.window context.start caret = .ok window) :
    ∃ candidates, (engine.collect cache stream caret context none).result = .ok candidates ∧
      (∀ t, t ∈ candidates.tokens ↔ t ∉ engine.ignored ∧
        ∃ n stack, Run g.automaton (fun _ => True) ⟨r.start, []⟩
          (window.dropLast.map Token.symbol) ⟨n, stack⟩ ∧ g.automaton.Offers n t) ∧
      (engine.collect cache stream caret context none).cache.Faithful g.automaton
        engine.identity (fun _ => True) := by
  have exhaustive := exhaustive h small tame ha hp window.toArray
  rw [← ha] at hc hr ⊢
  let q : Request := ⟨engine, window.toArray, none⟩
  have word : q.word = window.dropLast.map Token.symbol := by simp [q, Request.word]
  have nonempty : 0 < q.window.size := by
    simpa [q] using List.length_pos_iff.mpr (TokenStream.window_ne_nil hw)
  have rule := rules_of_rule? hr
  have knows : q.Knows [] { cache := cache } := ⟨hc, by simp, by simp⟩
  obtain ⟨ends, s, hs, complete⟩ :=
    (Request.enterRule_knows (e := ⟨context.rule.toNat, 0⟩) exhaustive knows).exists_ok
  have regular : q.Regular (fun _ => True) :=
    ⟨exhaustive.wellFormed.inPlace, exhaustive.wellFormed.stays, ha ▸ positiveLabels h small,
      Survey.confirms_true none⟩
  have sound := Request.canFollow_of_enterRule regular hc rule hs
  rw [Engine.collect_of_enterRule hr hw hs]
  refine ⟨_, rfl, fun t => ?_, complete.knows.cache⟩
  rw [← word]
  constructor
  · intro ht
    obtain ⟨-, ignored, offered⟩ := sound t ht
    exact ⟨ignored, offered⟩
  · rintro ⟨ignored, n, stack, run, offers⟩
    have nothing : t ≠ Symbol.nothing := by
      rintro rfl
      exact absurd (exhaustive.bounds n _ offers).1 (by decide)
    have reads : q.Reads 0 q.word q.word.length := ⟨by simp, Nat.zero_le _, Nat.le_refl _⟩
    exact complete.answered.recorded exhaustive complete.knows nonempty rule
      (run_iff_descent.mp run) reads offers nothing ignored

/-- After a sum of two only a plus can follow: a number is not a candidate. -/
theorem candidates_iff_offered_leftSum :
    ∃ (g : Grammar) (r : Rule), parse "g" leftSum "Ee" [] = .ok g ∧
      g.automaton.rule? 0 = some r ∧
      (∃ n stack, Run g.automaton (fun _ => True) ⟨r.start, []⟩ [2, 1, 2] ⟨n, stack⟩ ∧
        g.automaton.Offers n 1) ∧
      ¬ ∃ n stack, Run g.automaton (fun _ => True) ⟨r.start, []⟩ [2, 1, 2] ⟨n, stack⟩ ∧
        g.automaton.Offers n 2 := by
  let stream := TokenStream.ofTokens
    [{ symbol := 2 }, { symbol := 1 }, { symbol := 2 }, { symbol := 1 }]
  have answered : (parse "g" leftSum "Ee" []).toOption.map (fun g => ((g.automaton.rule? 0).isSome,
      (Engine.collect ⟨g.automaton, .automaton 0, [], []⟩ {} stream 3 {} none).result.toOption.map
        fun c => c.tokens.keys)) = some (true, some [1]) := by
    decide +kernel
  obtain ⟨g, h, found⟩ := exists_ok_of_toOption answered
  simp only [Prod.mk.injEq, Option.isSome_iff_exists] at found
  obtain ⟨⟨r, hr⟩, keys⟩ := found
  obtain ⟨window, hw, word⟩ := exists_ok_of_toOption (show (stream.window 0 3).toOption.map
    (fun window => window.dropLast.map Token.symbol) = some [2, 1, 2] by decide +kernel)
  have automaton : Engine.automaton ⟨g.automaton, .automaton 0, [], []⟩ = g.automaton := rfl
  have context : g.automaton.rule? ({} : RuleContext).rule = some r := hr
  obtain ⟨candidates, hc, offered, -⟩ := candidates_iff_offered h (by decide +kernel)
    (fun rule nullable => absurd nullable (leftSum_not_nullable h rule)) automaton rfl
    Cache.faithful_empty context hw
  obtain ⟨candidates', hc', keys⟩ := exists_ok_of_toOption keys
  cases hc.symm.trans hc'
  have member : ∀ t, t ∈ candidates.tokens ↔ t = 1 := by
    intro t
    rw [← Std.TreeMap.mem_keys, keys, List.mem_singleton]
  simp only [member, word, List.not_mem_nil, not_false_eq_true, true_and] at offered
  exact ⟨g, r, h, hr, (offered 1).mp rfl, fun two => absurd ((offered 2).mpr two) (by decide)⟩

end Grammar

end GrammarCompletion
