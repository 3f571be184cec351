import GrammarCompletion.Completion.Session
import GrammarCompletion.Proofs.IntervalSet.Members

/-!
# What is recorded

A record below a call stack is the outermost preferred rule of the stack or, where there is none,
the symbols that are not ignored. Records are only ever added: a rule stays, and a token stays with
the tokens that follow it or without any.
-/

namespace GrammarCompletion

def FollowSets.Listable (sets : FollowSets) : Prop := ∀ set ∈ sets.sets, set.symbols.Listable

namespace Candidates

variable {c d : Candidates} {engine : Engine} {frames : List Frame} {set : IntervalSet}
  {following : List Symbol} {x y : Symbol} {path : List Nat} {p : Int}

/-! ## Single records -/

theorem getElem?_addToken_self (c : Candidates) (y : Symbol) (following : List Symbol) :
    ∃ h, (c.addToken y following).tokens[y]? = some h ∧ (h = following ∨ h = []) := by
  unfold addToken
  split
  · exact ⟨following, Std.TreeMap.getElem?_insert_self, .inl rfl⟩
  · split
    case isTrue known hk same => exact ⟨known, hk, .inl same⟩
    case isFalse => exact ⟨[], Std.TreeMap.getElem?_insert_self, .inr rfl⟩

theorem getElem?_addToken_of_ne (ne : x ≠ y) :
    (c.addToken y following).tokens[x]? = c.tokens[x]? := by
  have other : ∀ h, (c.tokens.insert y h)[x]? = c.tokens[x]? := by
    intro h
    rw [Std.TreeMap.getElem?_insert, if_neg]
    rw [Std.LawfulEqCmp.compare_eq_iff_eq]
    exact ne.symm
  unfold addToken
  split
  · exact other following
  · split
    · rfl
    · exact other []

theorem mem_addToken : x ∈ (c.addToken y following).tokens ↔ x = y ∨ x ∈ c.tokens := by
  simp only [Std.TreeMap.mem_iff_isSome_getElem?]
  by_cases same : x = y
  · subst same
    obtain ⟨h, found, -⟩ := getElem?_addToken_self c x following
    simp [found]
  · simp [getElem?_addToken_of_ne same, same]

theorem rules_addToken : (c.addToken y following).rules = c.rules := by
  unfold addToken
  split
  · rfl
  · split <;> rfl

theorem tokens_addRule (rule : Int) (path : List Int) :
    (c.addRule rule path).tokens = c.tokens := by
  unfold addRule
  split <;> rfl

theorem mem_addRule {rule : Int} {path : List Int} :
    p ∈ (c.addRule rule path).rules ↔ p = rule ∨ p ∈ c.rules := by
  unfold addRule
  split
  case isTrue known =>
    rw [Std.TreeMap.contains_iff_mem] at known
    exact ⟨.inr, fun h => h.elim (fun h => h ▸ known) id⟩
  case isFalse => rw [Std.TreeMap.mem_insert, Std.LawfulEqCmp.compare_eq_iff_eq, eq_comm]

theorem getElem?_addRule {rule : Int} {path path' : List Int}
    (h : (c.addRule rule path).rules[p]? = some path') :
    c.rules[p]? = some path' ∨ p = rule ∧ path' = path := by
  unfold addRule at h
  split at h
  · exact .inl h
  · rw [Std.TreeMap.getElem?_insert] at h
    split at h
    case isTrue same =>
      cases h
      exact .inr ⟨(Std.LawfulEqCmp.compare_eq_iff_eq.mp same).symm, rfl⟩
    case isFalse => exact .inl h

/-- The symbols of a set that are recorded: those that are token types and not ignored. -/
def Admits (engine : Engine) (set : IntervalSet) (x : Symbol) : Prop :=
  x ∈ set ∧ x ≠ Symbol.nothing ∧ x ∉ engine.ignored

theorem foldl_induction {α : Type} (motive : Candidates → Prop)
    {change : Candidates → α → Candidates} (step : ∀ c v, motive c → motive (change c v))
    (values : List α) (h : motive c) : motive (values.foldl change c) := by
  induction values generalizing c with
  | nil => exact h
  | cons v values ih => exact ih (step c v h)

theorem foldlM_cons_ok {α : Type} {change : Candidates → α → Except Overlong Candidates} {v : α}
    {values : List α} (h : (v :: values).foldlM change c = .ok d) :
    ∃ e, change c v = .ok e ∧ values.foldlM change e = .ok d := by
  rw [List.foldlM_cons] at h
  cases first : change c v with
  | error fault =>
    rw [first] at h
    cases h
  | ok e =>
    rw [first] at h
    exact ⟨e, rfl, h⟩

theorem foldlM_induction {α : Type} (motive : Candidates → Prop)
    {change : Candidates → α → Except Overlong Candidates} {values : List α}
    (step : ∀ c, ∀ v ∈ values, ∀ d, motive c → change c v = .ok d → motive d) (h : motive c)
    (done : values.foldlM change c = .ok d) : motive d := by
  induction values generalizing c with
  | nil =>
    cases done
    exact h
  | cons v values ih =>
    obtain ⟨e, first, rest⟩ := foldlM_cons_ok done
    exact ih (fun c w hw => step c w (.tail v hw)) (step c v (.head values) e h first) rest

theorem addSymbols_eq_ok {ignored : List Symbol} (h : c.addSymbols ignored set following = .ok d) :
    d = c.addListed ignored set.elements following := by
  unfold addSymbols at h
  cases listed : set.values with
  | error fault =>
    rw [listed] at h
    cases h
  | ok symbols =>
    rw [listed] at h
    rw [← IntervalSet.eq_elements_of_values listed]
    exact (Except.ok.inj h).symm

theorem addSymbols_of_listable {ignored : List Symbol} (h : set.Listable) :
    c.addSymbols ignored set following = .ok (c.addListed ignored set.elements following) := by
  rw [addSymbols, h]
  rfl

theorem mem_addSymbols (h : c.addSymbols engine.ignored set following = .ok d) :
    x ∈ d.tokens ↔ x ∈ c.tokens ∨ Admits engine set x := by
  have fold : ∀ (values : List Symbol) (c : Candidates),
      x ∈ (c.addListed engine.ignored values following).tokens ↔
        x ∈ c.tokens ∨ (x ∈ values ∧ x ≠ Symbol.nothing ∧ x ∉ engine.ignored) := by
    intro values
    induction values with
    | nil => simp [addListed]
    | cons y values ih =>
      intro c
      rw [addListed, List.foldl_cons, ← addListed, ih]
      split
      case isTrue skipped =>
        rw [List.contains_iff_mem] at skipped
        grind
      case isFalse kept =>
        rw [List.contains_iff_mem] at kept
        rw [mem_addToken]
        grind
  rw [addSymbols_eq_ok h, fold, IntervalSet.mem_elements, Admits]

theorem rules_addSymbols {ignored : List Symbol} (h : c.addSymbols ignored set following = .ok d) :
    d.rules = c.rules := by
  rw [addSymbols_eq_ok h]
  refine foldl_induction (fun d => d.rules = c.rules) (fun d y h => ?_) set.elements rfl
  split
  · exact h
  · exact rules_addToken.trans h

/-! ## Preferred rules -/

/-- The outermost preferred rule of a call stack. -/
def outermost? (preferred : List Int) (stack : List Nat) : Option Nat :=
  stack.find? fun rule : Nat => preferred.contains (rule : Int)

def above (preferred : List Int) (stack : List Nat) : List Int :=
  (stack.takeWhile fun rule : Nat => !preferred.contains (rule : Int)).map Int.ofNat

theorem outermost?_nil (stack : List Nat) : outermost? [] stack = none := by
  simp [outermost?]

theorem outermost?_singleton (rule : Nat) (stack : List Nat) :
    outermost? [(rule : Int)] stack = if rule ∈ stack then some rule else none := by
  induction stack with
  | nil => rfl
  | cons other stack ih =>
    unfold outermost? at ih ⊢
    by_cases same : other = rule
    · subst same
      simp
    · rw [List.find?_cons_of_neg (by simpa using mt Int.ofNat.inj same), ih]
      simp [Ne.symm same]

theorem addPreferred?_eq (preferred : List Int) (stack : List Nat) (c : Candidates) :
    addPreferred? preferred stack c =
      (outermost? preferred stack).map
        fun rule : Nat => c.addRule rule (above preferred stack) := by
  have head : outermost? preferred stack =
      (stack.dropWhile fun rule : Nat => !preferred.contains (rule : Int)).head? := by
    unfold outermost?
    induction stack with
    | nil => rfl
    | cons rule stack ih =>
      rw [List.find?_cons, List.dropWhile_cons]
      cases preferred.contains (rule : Int) with
      | true => rfl
      | false => exact ih
  rw [head]
  simp only [addPreferred?]
  split
  case h_1 other => rw [other]; rfl
  case h_2 rule rest found => rw [found]; rfl

theorem addBelow_eq : c.addBelow engine frames path set following =
    match outermost? engine.preferred (callStack frames ++ path) with
    | some rule => .ok (c.addRule rule (above engine.preferred (callStack frames ++ path)))
    | none => c.addSymbols engine.ignored set following := by
  unfold addBelow
  split
  case isTrue empty =>
    rw [List.isEmpty_iff.mp empty, outermost?_nil]
  case isFalse =>
    rw [addPreferred?_eq]
    cases outermost? engine.preferred (callStack frames ++ path) <;> rfl

theorem addOutermost_eq : c.addOutermost engine frames path =
    match outermost? engine.preferred (callStack frames ++ path) with
    | some rule => c.addRule rule (above engine.preferred (callStack frames ++ path))
    | none => c := by
  unfold addOutermost
  split
  case isTrue empty =>
    rw [List.isEmpty_iff.mp empty, outermost?_nil]
  case isFalse =>
    rw [addPreferred?_eq]
    cases outermost? engine.preferred (callStack frames ++ path) <;> rfl

/-- A preferred rule that is entered is recorded below its callers, or one of them is. -/
theorem outermost?_of_contains {rule : Nat} (h : engine.preferred.contains (rule : Int) = true)
    (stack path : List Nat) :
    (outermost? engine.preferred (stack ++ [rule])).isSome = true ∧
      outermost? engine.preferred (stack ++ rule :: path) =
        outermost? engine.preferred (stack ++ [rule]) := by
  simp only [outermost?, List.find?_append, List.find?_cons, h]
  exact ⟨by simp, trivial⟩

/-! ## Nothing is recorded but what was met -/

theorem mem_tokens_addBelow (done : c.addBelow engine frames path set following = .ok d)
    (h : x ∈ d.tokens) :
    x ∈ c.tokens ∨ Admits engine set x ∧
      outermost? engine.preferred (callStack frames ++ path) = none := by
  rw [addBelow_eq] at done
  split at done
  case h_1 =>
    cases done
    rw [tokens_addRule] at h
    exact .inl h
  case h_2 other => exact ((mem_addSymbols done).mp h).imp_right fun hx => ⟨hx, other⟩

theorem mem_rules_addBelow (done : c.addBelow engine frames path set following = .ok d)
    (h : p ∈ d.rules) :
    p ∈ c.rules ∨ ∃ rule : Nat, p = rule ∧
      outermost? engine.preferred (callStack frames ++ path) = some rule := by
  rw [addBelow_eq] at done
  split at done
  case h_1 rule found =>
    cases done
    exact (mem_addRule.mp h).symm.imp_right fun hp => ⟨rule, hp, found⟩
  case h_2 =>
    rw [rules_addSymbols done] at h
    exact .inl h

theorem tokens_addOutermost : (c.addOutermost engine frames path).tokens = c.tokens := by
  rw [addOutermost_eq]
  split
  · exact tokens_addRule _ _
  · rfl

theorem mem_rules_addOutermost (h : p ∈ (c.addOutermost engine frames path).rules) :
    p ∈ c.rules ∨ ∃ rule : Nat, p = rule ∧
      outermost? engine.preferred (callStack frames ++ path) = some rule := by
  rw [addOutermost_eq] at h
  split at h
  case h_1 rule found => exact (mem_addRule.mp h).symm.imp_right fun hp => ⟨rule, hp, found⟩
  case h_2 => exact .inl h

theorem mem_tokens_addFollowSets {rule : Nat} {sets : FollowSets}
    (done : c.addFollowSets engine frames rule sets = .ok d) (h : x ∈ d.tokens) :
    x ∈ c.tokens ∨ ∃ set ∈ sets.sets, Admits engine set.symbols x ∧
      outermost? engine.preferred (callStack frames ++ rule :: set.path) = none := by
  unfold addFollowSets at done
  split at done
  · cases done
    rw [tokens_addOutermost] at h
    exact .inl h
  · refine foldlM_induction (fun d => x ∈ d.tokens → x ∈ c.tokens ∨ ∃ set ∈ sets.sets,
      Admits engine set.symbols x ∧
        outermost? engine.preferred (callStack frames ++ rule :: set.path) = none) ?_ .inl done h
    intro _ set member _ before step hx
    rcases mem_tokens_addBelow step hx with hx | met
    · exact before hx
    · exact .inr ⟨set, member, met⟩

/-- The rules recorded for follow sets stand below the entered rule or below one of the paths. -/
theorem mem_rules_addFollowSets {rule : Nat} {sets : FollowSets}
    (done : c.addFollowSets engine frames rule sets = .ok d) (h : p ∈ d.rules) :
    p ∈ c.rules ∨ ∃ (outer : Nat) (path : List Nat), p = outer ∧
      (path = [] ∨ ∃ set ∈ sets.sets, path = set.path) ∧
      outermost? engine.preferred (callStack frames ++ rule :: path) = some outer := by
  unfold addFollowSets at done
  split at done
  · cases done
    exact (mem_rules_addOutermost h).imp_right fun ⟨outer, hp, found⟩ =>
      ⟨outer, [], hp, .inl rfl, found⟩
  · refine foldlM_induction (fun d => p ∈ d.rules → p ∈ c.rules ∨ ∃ (outer : Nat) (path : List Nat),
      p = outer ∧ (path = [] ∨ ∃ set ∈ sets.sets, path = set.path) ∧
        outermost? engine.preferred (callStack frames ++ rule :: path) = some outer) ?_ .inl done h
    intro _ set member _ before step hp
    rcases mem_rules_addBelow step hp with hp | ⟨outer, hp, found⟩
    · exact before hp
    · exact .inr ⟨outer, set.path, hp, .inr ⟨set, member, rfl⟩, found⟩

/-! ## Nothing is lost -/

/-- Every record is still there; the tokens that follow one may have been dropped. -/
structure Grows (c d : Candidates) : Prop where
  tokens : ∀ (x : Symbol) (h : List Symbol), c.tokens[x]? = some h →
    ∃ h', d.tokens[x]? = some h' ∧ (h' = h ∨ h' = [])
  rules : ∀ p ∈ c.rules, p ∈ d.rules

theorem Grows.refl (c : Candidates) : Grows c c :=
  ⟨fun _ h found => ⟨h, found, .inl rfl⟩, fun _ => id⟩

theorem Grows.keeps (grows : Grows c d)
    (h : ∃ known, c.tokens[x]? = some known ∧ (known = following ∨ known = [])) :
    ∃ known, d.tokens[x]? = some known ∧ (known = following ∨ known = []) := by
  obtain ⟨known, found, same⟩ := h
  obtain ⟨known', found', same'⟩ := grows.tokens x known found
  refine ⟨known', found', ?_⟩
  rcases same' with rfl | same'
  · exact same
  · exact .inr same'

theorem Grows.trans {e : Candidates} (h : Grows c d) (h' : Grows d e) : Grows c e where
  tokens x known found := h'.keeps (h.tokens x known found)
  rules p hp := h'.rules p (h.rules p hp)

theorem grows_addToken (c : Candidates) (y : Symbol) (following : List Symbol) :
    Grows c (c.addToken y following) where
  tokens x known found := by
    by_cases same : x = y
    · subst same
      unfold addToken
      split
      case h_1 missing => cases missing.symm.trans found
      case h_2 known' found' =>
        cases found'.symm.trans found
        split
        · exact ⟨known, found, .inl rfl⟩
        · exact ⟨[], Std.TreeMap.getElem?_insert_self, .inr rfl⟩
    · rw [getElem?_addToken_of_ne same]
      exact ⟨known, found, .inl rfl⟩
  rules p hp := by rwa [rules_addToken]

theorem grows_addSymbols {ignored : List Symbol}
    (done : c.addSymbols ignored set following = .ok d) : Grows c d := by
  rw [addSymbols_eq_ok done]
  refine foldl_induction (Grows c) (fun d y h => ?_) set.elements (.refl c)
  split
  · exact h
  · exact h.trans (grows_addToken d y following)

theorem grows_addRule (c : Candidates) (rule : Int) (path : List Int) :
    Grows c (c.addRule rule path) where
  tokens x known found := ⟨known, by rw [tokens_addRule, found], .inl rfl⟩
  rules p hp := mem_addRule.mpr (.inr hp)

theorem grows_addBelow (done : c.addBelow engine frames path set following = .ok d) :
    Grows c d := by
  rw [addBelow_eq] at done
  split at done
  · cases done
    exact grows_addRule ..
  · exact grows_addSymbols done

theorem grows_addOutermost (c : Candidates) (engine : Engine) (frames : List Frame)
    (path : List Nat) : Grows c (c.addOutermost engine frames path) := by
  rw [addOutermost_eq]
  split
  · exact grows_addRule ..
  · exact .refl c

theorem grows_addFollowSets {rule : Nat} {sets : FollowSets}
    (done : c.addFollowSets engine frames rule sets = .ok d) : Grows c d := by
  unfold addFollowSets at done
  split at done
  · cases done
    exact grows_addOutermost ..
  · exact foldlM_induction (Grows c) (fun _ _ _ _ h step => h.trans (grows_addBelow step)) (.refl c) done

/-! ## What was met is accounted for -/

/-- A symbol met below a call stack has been recorded: by the outermost preferred rule of the stack,
or as a token with the tokens that follow it here or without any. -/
def Accounts (c : Candidates) (engine : Engine) (stack : List Nat) (x : Symbol)
    (following : List Symbol) : Prop :=
  match outermost? engine.preferred stack with
  | some rule => (rule : Int) ∈ c.rules
  | none => x ∉ engine.ignored →
      ∃ h, c.tokens[x]? = some h ∧ (h = following ∨ h = [])

theorem Accounts.mono {stack : List Nat} (h : c.Accounts engine stack x following)
    (grows : Grows c d) : d.Accounts engine stack x following := by
  unfold Accounts at h ⊢
  split at h
  case h_1 => exact grows.rules _ h
  case h_2 => exact fun kept => grows.keeps (h kept)

theorem getElem?_addSymbols (done : c.addSymbols engine.ignored set following = .ok d)
    (hx : Admits engine set x) :
    ∃ h, d.tokens[x]? = some h ∧ (h = following ∨ h = []) := by
  obtain ⟨hset, nothing, kept⟩ := hx
  obtain ⟨before, after, split⟩ := List.append_of_mem (IntervalSet.mem_elements.mpr hset)
  rw [addSymbols_eq_ok done, addListed, split, List.foldl_append, List.foldl_cons,
    if_neg (by simp [nothing, kept])]
  -- The symbol is recorded with what follows it, and from there on it stays.
  refine foldl_induction (fun d => ∃ h, d.tokens[x]? = some h ∧ (h = following ∨ h = []))
    (fun d y h => ?_) after (getElem?_addToken_self _ x following)
  split
  · exact h
  · exact (grows_addToken d y following).keeps h

theorem accounts_addBelow (done : c.addBelow engine frames path set following = .ok d)
    (hx : x ∈ set) (nothing : x ≠ Symbol.nothing) :
    d.Accounts engine (callStack frames ++ path) x following := by
  rw [addBelow_eq] at done
  unfold Accounts
  split at done
  case h_1 =>
    cases done
    exact mem_addRule.mpr (.inl rfl)
  case h_2 =>
    exact fun kept => getElem?_addSymbols done ⟨hx, nothing, kept⟩

theorem accounts_addFollowSets {rule : Nat} {sets : FollowSets} {set : FollowSet}
    (done : c.addFollowSets engine frames rule sets = .ok d) (hset : set ∈ sets.sets)
    (hx : x ∈ set.symbols) (nothing : x ≠ Symbol.nothing) :
    d.Accounts engine (callStack frames ++ rule :: set.path) x set.following := by
  unfold addFollowSets at done
  split at done
  case isTrue preferred =>
    obtain ⟨found, same⟩ := outermost?_of_contains preferred (callStack frames) set.path
    obtain ⟨outer, found⟩ := Option.isSome_iff_exists.mp found
    cases done
    rw [addOutermost_eq]
    simp only [Accounts, same, found]
    exact mem_addRule.mpr (.inl rfl)
  case isFalse =>
    generalize sets.sets = all at done hset
    induction all generalizing c with
    | nil => cases hset
    | cons other all ih =>
      obtain ⟨e, first, rest⟩ := foldlM_cons_ok done
      rcases List.mem_cons.mp hset with rfl | later
      · exact foldlM_induction
          (fun d => d.Accounts engine (callStack frames ++ rule :: set.path) x set.following)
          (fun _ _ _ _ h step => h.mono (grows_addBelow step)) (accounts_addBelow first hx nothing) rest
      · exact ih rest later

/-! ## Sets that can be listed -/

theorem addBelow_of_listable (h : set.Listable) :
    ∃ d, c.addBelow engine frames path set following = .ok d := by
  rw [addBelow_eq]
  split
  · exact ⟨_, rfl⟩
  · exact ⟨_, addSymbols_of_listable h⟩

theorem addFollowSets_of_listable {rule : Nat} {sets : FollowSets} (h : sets.Listable) :
    ∃ d, c.addFollowSets engine frames rule sets = .ok d := by
  unfold FollowSets.Listable at h
  unfold addFollowSets
  split
  · exact ⟨_, rfl⟩
  · generalize sets.sets = all at h ⊢
    induction all generalizing c with
    | nil => exact ⟨c, rfl⟩
    | cons set all ih =>
      rw [List.forall_mem_cons] at h
      obtain ⟨e, first⟩ : ∃ e, c.addBelow engine frames (rule :: set.path) set.symbols
          set.following = .ok e := addBelow_of_listable h.1
      rw [List.foldlM_cons, first]
      exact ih h.2

end Candidates

end GrammarCompletion
