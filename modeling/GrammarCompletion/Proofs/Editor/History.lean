import GrammarCompletion.Proofs.Editor.Server
import GrammarCompletion.Proofs.Language.Independence
import Mathlib.Data.List.Induction

/-!
# What a server answers from

A completion request is answered from the text that was last written to its document. The history of
messages says which text that is: a document is open from a message that opens it on, if a language
claims it, up to one that closes it, and only an open document can be written to. All documents of a
language share a cache, which does not show.
-/

namespace GrammarCompletion

/-! ## Open documents -/

namespace Documents

variable {Lang : Type} {d : Documents Lang} {uri other : Bytes}

theorem uri_of_get? {doc : Document Lang} (found : d.get? uri = some doc) : doc.uri = uri := by
  simpa using List.find?_some found

theorem get?_close_self (d : Documents Lang) (uri : Bytes) : (d.close uri).get? uri = none := by
  simp [get?, close]

theorem get?_close_of_ne (d : Documents Lang) (differs : other ≠ uri) :
    (d.close other).get? uri = d.get? uri := by
  unfold get? close
  rw [List.find?_filter]
  congr 1
  funext doc
  by_cases same : doc.uri = uri
  · simp [same, differs.symm]
  · simp [same]

theorem get?_put_self (d : Documents Lang) (doc : Document Lang) :
    (d.put doc).get? doc.uri = some doc := by
  simp [get?, put]

theorem get?_put_of_ne (d : Documents Lang) {doc : Document Lang} (differs : doc.uri ≠ uri) :
    (d.put doc).get? uri = d.get? uri := by
  rw [← get?_close_of_ne d differs]
  simp [get?, put, differs]

/-- Writing to a document does nothing to the others, and nothing at all if it is not open. -/
theorem get?_update (d : Documents Lang) (other text : Bytes) (version : Int) (uri : Bytes) :
    ((d.update? other text version).getD d).get? uri =
      if other = uri then (d.get? uri).map fun doc => { doc with text, version } else d.get? uri := by
  unfold update?
  cases found : d.get? other with
  | none =>
    by_cases same : other = uri
    · subst same
      simp [found]
    · simp [same]
  | some doc =>
    have name := uri_of_get? found
    by_cases same : other = uri
    · subst same
      have written := get?_put_self d { doc with text := text, version := version }
      simpa [found, name] using written
    · have differs : ({ doc with text := text, version := version } : Document Lang).uri ≠ uri := by
        simpa [name] using same
      simpa [same] using get?_put_of_ne d differs

end Documents

namespace Editor

/-! ## Histories -/

def languageOf? (languages : List Language) (uri : Bytes) : Option Language :=
  (Uri.path uri).toOption.bind fun path => languages.find? fun l => l.claims path

/-- The document was opened by a message, a language claims it, and it was not closed since. -/
def IsOpen (languages : List Language) (history : List Message) (uri : Bytes) : Prop :=
  (languageOf? languages uri).isSome ∧ ∃ before text version after,
    history = before ++ .opened uri text version :: after ∧ .closed uri ∉ after

/-- The message gives a document a text: it opens a document that a language claims, or it comes with
the whole text of one that is open. -/
inductive Writes (languages : List Language) (uri : Bytes) (isOpen : Prop) : Message → Bytes → Prop
  | opened {text : Bytes} {version : Int} (claimed : (languageOf? languages uri).isSome) :
      Writes languages uri isOpen (.opened uri text version) text
  | changed {text : Bytes} {version : Int} {changes : List Change} (known : isOpen)
      (last : changes.getLast? = some (.whole text)) :
      Writes languages uri isOpen (.changed uri version changes) text
  | saved {text : Bytes} (known : isOpen) : Writes languages uri isOpen (.saved uri (some text)) text

/-- The text was the last one written to the document since it was last closed. -/
def LastWrite (languages : List Language) (history : List Message) (uri text : Bytes) : Prop :=
  ∃ before m after, history = before ++ m :: after ∧
    Writes languages uri (IsOpen languages before uri) m text ∧ .closed uri ∉ after ∧
    ∀ before' m' after' text', after = before' ++ m' :: after' →
      ¬ Writes languages uri (IsOpen languages (before ++ m :: before') uri) m' text'

theorem append_one_eq_iff {α : Type} {history before after : List α} {m x : α} :
    history ++ [m] = before ++ x :: after ↔
      after = [] ∧ history = before ∧ m = x ∨
        ∃ rest, after = rest ++ [m] ∧ history = before ++ x :: rest := by
  constructor
  · intro split
    rcases List.eq_nil_or_concat after with rfl | ⟨rest, last, rfl⟩
    · obtain ⟨same, one⟩ := List.append_inj' split rfl
      exact .inl ⟨rfl, same, by simpa using one⟩
    · have split : history ++ [m] = (before ++ x :: rest) ++ [last] := by simpa using split
      obtain ⟨same, one⟩ := List.append_inj' split rfl
      exact .inr ⟨rest, by simpa using one.symm, same⟩
  · rintro (⟨rfl, rfl, rfl⟩ | ⟨rest, rfl, rfl⟩)
    · rfl
    · simp

section
variable {languages : List Language} {history : List Message} {uri text : Bytes} {m : Message}

/-- One more message: it opens the document, or the document is open and stays so. -/
theorem isOpen_append_one : IsOpen languages (history ++ [m]) uri ↔
    (languageOf? languages uri).isSome ∧ (∃ text version, m = .opened uri text version) ∨
      IsOpen languages history uri ∧ m ≠ .closed uri := by
  constructor
  · rintro ⟨claimed, before, text, version, after, split, unclosed⟩
    rcases append_one_eq_iff.mp split with ⟨-, -, rfl⟩ | ⟨rest, rfl, rfl⟩
    · exact .inl ⟨claimed, text, version, rfl⟩
    · rw [List.mem_append, List.mem_singleton, not_or] at unclosed
      exact .inr ⟨⟨claimed, before, text, version, rest, rfl, unclosed.1⟩, Ne.symm unclosed.2⟩
  · rintro (⟨claimed, text, version, rfl⟩ | ⟨⟨claimed, before, text, version, after, rfl, unclosed⟩, kept⟩)
    · exact ⟨claimed, history, text, version, [], rfl, by simp⟩
    · refine ⟨claimed, before, text, version, after ++ [m], by simp, ?_⟩
      simp [unclosed, kept.symm]

/-- One more message: it writes the text, or the text was written before and it neither writes nor
closes. -/
theorem lastWrite_append_one : LastWrite languages (history ++ [m]) uri text ↔
    Writes languages uri (IsOpen languages history uri) m text ∨
      LastWrite languages history uri text ∧ m ≠ .closed uri ∧
        ∀ other, ¬ Writes languages uri (IsOpen languages history uri) m other := by
  constructor
  · rintro ⟨before, w, after, split, writes, unclosed, last⟩
    rcases append_one_eq_iff.mp split with ⟨-, rfl, rfl⟩ | ⟨rest, rfl, rfl⟩
    · exact .inl writes
    · rw [List.mem_append, List.mem_singleton, not_or] at unclosed
      refine .inr ⟨⟨before, w, rest, rfl, writes, unclosed.1, ?_⟩, Ne.symm unclosed.2,
        fun other => last rest m [] other rfl⟩
      intro before' m' after' text' split'
      exact last before' m' (after' ++ [m]) text' (by simp [split'])
  · rintro (writes | ⟨⟨before, w, after, rfl, writes, unclosed, last⟩, kept, none⟩)
    · exact ⟨history, m, [], rfl, writes, by simp, by simp⟩
    · refine ⟨before, w, after ++ [m], by simp, writes, ?_, ?_⟩
      · simp [unclosed, kept.symm]
      · intro before' m' after' text' split'
        rcases append_one_eq_iff.mp split' with ⟨-, rfl, rfl⟩ | ⟨rest, -, split⟩
        · exact none text'
        · exact last before' m' rest text' split

theorem Writes.isOpen_append_one {isOpen : Prop} (writes : Writes languages uri isOpen m text)
    (known : isOpen → IsOpen languages history uri) : IsOpen languages (history ++ [m]) uri := by
  rw [Editor.isOpen_append_one]
  cases writes with
  | opened claimed => exact .inl ⟨claimed, _, _, rfl⟩
  | changed opened => exact .inr ⟨known opened, by simp⟩
  | saved opened => exact .inr ⟨known opened, by simp⟩

theorem Writes.eq {isOpen : Prop} {other : Bytes} (writes : Writes languages uri isOpen m text)
    (writes' : Writes languages uri isOpen m other) : text = other := by
  cases writes with
  | opened =>
    cases writes'
    rfl
  | changed _ last =>
    cases writes' with
    | changed _ last' =>
      cases last.symm.trans last'
      rfl
  | saved =>
    cases writes'
    rfl

theorem writes_changed_iff {isOpen : Prop} {other : Bytes} {version : Int} {changes : List Change} :
    Writes languages uri isOpen (.changed other version changes) text ↔
      other = uri ∧ isOpen ∧ changes.getLast? = some (.whole text) := by
  constructor
  · intro writes
    cases writes with
    | changed known last => exact ⟨rfl, known, last⟩
  · rintro ⟨rfl, known, last⟩
    exact .changed known last

theorem writes_saved_iff {isOpen : Prop} {other : Bytes} {saved : Option Bytes} :
    Writes languages uri isOpen (.saved other saved) text ↔
      other = uri ∧ isOpen ∧ saved = some text := by
  constructor
  · intro writes
    cases writes with
    | saved known => exact ⟨rfl, known, rfl⟩
  · rintro ⟨rfl, known, rfl⟩
    exact .saved known

def Idle (languages : List Language) (history : List Message) (uri : Bytes) (m : Message) : Prop :=
  m ≠ .closed uri ∧ ∀ text, ¬ Writes languages uri (IsOpen languages history uri) m text

theorem Idle.isOpen_append_one (idle : Idle languages history uri m) :
    IsOpen languages (history ++ [m]) uri ↔ IsOpen languages history uri := by
  obtain ⟨unclosed, unwritten⟩ := idle
  rw [Editor.isOpen_append_one]
  constructor
  · rintro (⟨claimed, text, version, rfl⟩ | ⟨opened, -⟩)
    · exact absurd (.opened claimed) (unwritten text)
    · exact opened
  · exact fun opened => .inr ⟨opened, unclosed⟩

theorem Idle.lastWrite_append_one (idle : Idle languages history uri m) :
    LastWrite languages (history ++ [m]) uri text ↔ LastWrite languages history uri text := by
  obtain ⟨unclosed, unwritten⟩ := idle
  rw [Editor.lastWrite_append_one]
  simp only [unwritten, unclosed, false_or, ne_eq, not_false_eq_true, implies_true, and_true]

/-- Without an idle message, a history tells the same about the document. -/
theorem Idle.skip (idle : Idle languages history uri m) (later : List Message) :
    (IsOpen languages (history ++ m :: later) uri ↔ IsOpen languages (history ++ later) uri) ∧
      ∀ text, LastWrite languages (history ++ m :: later) uri text ↔
        LastWrite languages (history ++ later) uri text := by
  induction later using List.reverseRecOn with
  | nil =>
    rw [List.append_nil]
    exact ⟨idle.isOpen_append_one, fun _ => idle.lastWrite_append_one⟩
  | append_singleton later last ih =>
    have longer : history ++ m :: (later ++ [last]) = history ++ m :: later ++ [last] := by simp
    rw [longer, ← List.append_assoc]
    constructor
    · rw [Editor.isOpen_append_one, Editor.isOpen_append_one, ih.1]
    · intro text
      rw [Editor.lastWrite_append_one, Editor.lastWrite_append_one, ih.1, ih.2]

end

/-! ## Messages -/

namespace Server

variable {s : Server} {languages : List Language} {uri : Bytes}

theorem documents_complete (s : Server) (uri : Bytes) (line character : Nat) :
    (s.complete uri line character).1.documents = s.documents := by
  unfold complete
  split
  · rfl
  · split
    · rfl
    · rfl

theorem Hosts.languageFor?_eq (hs : s.Hosts languages) {path : Bytes} :
    s.languageFor? path = languages.findIdx? fun l => l.claims path := by
  rw [← hs.languages, List.findIdx?_map]
  rfl

inductive Becomes (languages : List Language) (uri : Bytes) (before : Option (Document Nat)) :
    Message → Option (Document Nat) → Prop
  | closed : Becomes languages uri before (.closed uri) none
  | written {m : Message} {text : Bytes} {version : Int} {language : Nat}
      (writes : Writes languages uri before.isSome m text)
      (known : languages[language]? = languageOf? languages uri ∨
        ∃ doc, before = some doc ∧ doc.language = language) :
      Becomes languages uri before m (some ⟨uri, language, text, version⟩)
  | kept {m : Message} (unclosed : m ≠ .closed uri)
      (unwritten : ∀ text, ¬ Writes languages uri before.isSome m text) :
      Becomes languages uri before m before

theorem becomes_opened (hs : s.Hosts languages) (uri other text : Bytes) (version : Int) :
    Becomes languages uri (s.documents.get? uri) (.opened other text version)
      ((s.openDocument other text version).documents.get? uri) := by
  cases path : Uri.path other with
  | error e =>
    simp only [openDocument, path]
    refine .kept (by simp) fun _ writes => ?_
    cases writes with
    | opened claimed => simp [languageOf?, path, Except.toOption] at claimed
  | ok file =>
    have claim : languageOf? languages other =
        (languages.findIdx? fun l => l.claims file).bind fun i => languages[i]? := by
      simp only [languageOf?, path, Except.toOption, Option.bind_some]
      exact List.find?_eq_bind_findIdx?_getElem?
    rw [← hs.languageFor?_eq] at claim
    simp only [openDocument, path]
    cases found : s.languageFor? file with
    | none =>
      refine .kept (by simp) fun _ writes => ?_
      cases writes with
      | opened claimed => simp [claim, found] at claimed
    | some language =>
      rw [found, Option.bind_some] at claim
      have inside : language < languages.length := by
        rw [hs.languageFor?_eq] at found
        exact (List.findIdx?_eq_some_iff_getElem.mp found).choose
      by_cases same : other = uri
      · subst same
        dsimp only
        rw [Documents.get?_put_self _ ⟨other, language, text, version⟩]
        exact .written (.opened (by simp [claim, inside])) (.inl claim.symm)
      · have differs : (⟨other, language, text, version⟩ : Document Nat).uri ≠ uri := same
        dsimp only
        rw [Documents.get?_put_of_ne _ differs]
        refine .kept (by simp) fun _ writes => ?_
        cases writes with
        | opened => exact same rfl

/-- A message that comes with the whole text of a document writes it if the document is open. -/
theorem becomes_written {m : Message} {other text : Bytes} (version : Int)
    (unclosed : m ≠ .closed uri)
    (writes : ∀ isOpen text', Writes languages uri isOpen m text' ↔
      other = uri ∧ isOpen ∧ text' = text) :
    Becomes languages uri (s.documents.get? uri) m
      ((s.writeDocument other text version).documents.get? uri) := by
  unfold writeDocument
  dsimp only
  rw [Documents.get?_update]
  by_cases same : other = uri
  · rw [if_pos same]
    cases found : s.documents.get? uri with
    | none =>
      refine .kept unclosed fun text' written => ?_
      have := ((writes _ _).mp written).2.1
      simp at this
    | some doc =>
      have name := Documents.uri_of_get? found
      rw [Option.map_some, name]
      exact .written ((writes _ _).mpr ⟨same, rfl, rfl⟩) (.inr ⟨doc, rfl, rfl⟩)
  · rw [if_neg same]
    exact .kept unclosed fun text' written => same ((writes _ _).mp written).1

theorem becomes_perform (hs : s.Hosts languages) (uri : Bytes) (m : Message) :
    Becomes languages uri (s.documents.get? uri) m ((s.perform m).1.documents.get? uri) := by
  cases m with
  | start | initialized | shutdown | setTrace => exact .kept (by simp) fun _ writes => by cases writes
  | opened other text version => exact becomes_opened hs uri other text version
  | changed other version changes =>
    simp only [perform]
    cases last : changes.getLast? with
    | none => exact .kept (by simp) fun _ writes => by simp [writes_changed_iff, last] at writes
    | some change =>
      cases change with
      | part => exact .kept (by simp) fun _ writes => by simp [writes_changed_iff, last] at writes
      | whole text =>
        apply becomes_written version (by simp)
        intro isOpen text'
        simp only [writes_changed_iff, last, Option.some.injEq, Change.whole.injEq, eq_comm]
  | closed other =>
    simp only [perform]
    by_cases same : other = uri
    · subst same
      rw [Documents.get?_close_self]
      exact .closed
    · rw [Documents.get?_close_of_ne _ same]
      exact .kept (by simpa using same) fun _ writes => by cases writes
  | saved other text =>
    simp only [perform]
    cases text with
    | none => exact .kept (by simp) fun _ writes => by cases writes
    | some text =>
      cases found : s.documents.get? other with
      | none =>
        refine .kept (by simp) fun text' writes => ?_
        obtain ⟨rfl, opened, -⟩ := writes_saved_iff.mp writes
        simp [found] at opened
      | some doc =>
        apply becomes_written doc.version (by simp)
        intro isOpen text'
        simp only [writes_saved_iff, Option.some.injEq, eq_comm]
  | completion other line character =>
    simp only [perform, documents_complete]
    exact .kept (by simp) fun _ writes => by cases writes

/-! ## Runs -/

def told (s : Server) (history : List Message) : Server :=
  history.foldl (fun s m => (s.perform m).1) s

theorem told_append (s : Server) (history later : List Message) :
    s.told (history ++ later) = (s.told history).told later := List.foldl_append

theorem Hosts.told (hs : s.Hosts languages) (history : List Message) :
    (s.told history).Hosts languages := by
  induction history generalizing s with
  | nil => exact hs
  | cons m history ih => exact ih (hs.perform m)

/-- The server has a document if the history says that it is open, with the text that was last
written to it. -/
structure Recalls (languages : List Language) (history : List Message) (uri : Bytes)
    (stored : Option (Document Nat)) : Prop where
  isOpen : stored.isSome = true ↔ IsOpen languages history uri
  lastWrite : ∀ text, LastWrite languages history uri text ↔
    ∃ doc, stored = some doc ∧ doc.text = text
  language : ∀ doc, stored = some doc → languages[doc.language]? = languageOf? languages uri

/-- The text of a document is the last one written to it, message by message. -/
theorem Recalls.step {history : List Message} {before after : Option (Document Nat)} {m : Message}
    (h : Recalls languages history uri before) (step : Becomes languages uri before m after) :
    Recalls languages (history ++ [m]) uri after := by
  cases step with
  | closed =>
    constructor
    · simp [isOpen_append_one]
    · intro text
      rw [lastWrite_append_one]
      simp only [ne_eq, not_true_eq_false, false_and, and_false, or_false, reduceCtorEq, exists_false,
        iff_false]
      intro writes
      cases writes
    · intro doc stored
      cases stored
  | written writes known =>
    rw [h.isOpen] at writes
    constructor
    · simpa using writes.isOpen_append_one id
    · intro text
      rw [lastWrite_append_one]
      constructor
      · rintro (writes' | ⟨-, -, unwritten⟩)
        · exact ⟨_, rfl, writes.eq writes'⟩
        · exact absurd writes (unwritten _)
      · rintro ⟨doc, stored, rfl⟩
        cases stored
        exact .inl writes
    · intro doc stored
      cases stored
      rcases known with known | ⟨old, found, rfl⟩
      · exact known
      · exact h.language old found
  | kept unclosed unwritten =>
    rw [h.isOpen] at unwritten
    have idle : Idle languages history uri m := ⟨unclosed, unwritten⟩
    constructor
    · rw [h.isOpen, idle.isOpen_append_one]
    · intro text
      rw [idle.lastWrite_append_one, h.lastWrite]
    · exact h.language

theorem recalls_told (version : Bytes) (languages : List Language) (history : List Message)
    (uri : Bytes) :
    Recalls languages history uri (((make version languages).told history).documents.get? uri) := by
  induction history using List.reverseRecOn with
  | nil =>
    constructor
    · simp [told, make, Documents.empty, Documents.get?, IsOpen]
    · simp [told, make, Documents.empty, Documents.get?, LastWrite]
    · simp [told, make, Documents.empty, Documents.get?]
  | append_singleton history m ih =>
    rw [told_append]
    exact ih.step (becomes_perform ((Hosts.make version languages).told history) uri m)

/-! ## Calls -/

def heard? (s : Server) (method : Bytes) (params : Json) : Option Message :=
  if !s.isInitialized && method != "initialize" then none
  else (readers.lookup method).bind fun read? => read? params

def heard (s : Server) : List (Bytes × Json) → List Message
  | [] => []
  | call :: calls => (s.heard? call.1 call.2).toList ++ heard (s.handle call.1 call.2).1 calls

theorem handle_of_heard? {method : Bytes} {params : Json} {m : Message}
    (heard : s.heard? method params = some m) :
    s.handle method params = ((s.perform m).1, .result (s.perform m).2) := by
  unfold heard? at heard
  unfold handle
  split at heard
  · cases heard
  · next ready =>
    obtain ⟨read?, found, message⟩ := Option.bind_eq_some_iff.mp heard
    simp only [if_neg ready, found, message]

theorem handle_of_not_heard {method : Bytes} {params : Json}
    (unheard : s.heard? method params = none) : (s.handle method params).1 = s := by
  unfold heard? at unheard
  unfold handle
  split at unheard
  · next refused => rw [if_pos refused]
  · next ready =>
    rw [if_neg ready]
    cases found : readers.lookup method with
    | none => rfl
    | some read? =>
      rw [found, Option.bind_some] at unheard
      simp only [unheard]

/-- Calls do what their messages do. -/
theorem after_eq_told (s : Server) (calls : List (Bytes × Json)) :
    s.after calls = s.told (s.heard calls) := by
  induction calls generalizing s with
  | nil => rfl
  | cons call calls ih =>
    have step : s.after (call :: calls) = (s.handle call.1 call.2).1.after calls := rfl
    rw [step, ih, heard, told_append]
    cases message : s.heard? call.1 call.2 with
    | none =>
      rw [handle_of_not_heard message]
      rfl
    | some m =>
      rw [handle_of_heard? message]
      rfl

/-! ## Answers -/

def shown (proposals : List Proposal) : Json :=
  if proposals.isEmpty then .null else .array (proposals.map item)

def answerAfter (version : Bytes) (languages : List Language) (history : List Message) (uri : Bytes)
    (line character : Nat) : Json :=
  (((make version languages).told history).perform (.completion uri line character)).2

theorem perform_completion (s : Server) (uri : Bytes) (line character : Nat) :
    (s.perform (.completion uri line character)).2 = shown (s.complete uri line character).2 := rfl

variable {version : Bytes} {history : List Message} {line character : Nat}

theorem answerAfter_of_not_isOpen (closed : ¬ IsOpen languages history uri) :
    answerAfter version languages history uri line character = .null := by
  rw [← (recalls_told version languages history uri).isOpen, Option.not_isSome_iff_eq_none] at closed
  unfold answerAfter
  rw [perform_completion, complete, closed]
  rfl

theorem exists_lastWrite (opened : IsOpen languages history uri) :
    ∃ text, LastWrite languages history uri text := by
  have recalls := recalls_told [] languages history uri
  obtain ⟨doc, stored⟩ := Option.isSome_iff_exists.mp (recalls.isOpen.mpr opened)
  exact ⟨doc.text, (recalls.lastWrite _).mpr ⟨doc, stored, rfl⟩⟩

/-- A request about a document with a text is answered as by a new language. -/
theorem answerAfter_of_lastWrite (accepted : ∀ l ∈ languages, l.Accepted) {text : Bytes}
    (written : LastWrite languages history uri text) :
    ∃ l c, languageOf? languages uri = some l ∧
      (l.complete {} text (TextPosition.offset text line character) none).result = .ok c ∧
      answerAfter version languages history uri line character = shown c.proposals := by
  have hosts := (Hosts.make version languages).told history
  have recalls := recalls_told version languages history uri
  obtain ⟨doc, stored, rfl⟩ := (recalls.lastWrite text).mp written
  obtain ⟨h, c, found, named, result, proposals⟩ :=
    hosts.exists_completion accepted stored line character
  obtain ⟨served, cache⟩ := hosts.served _ h found
  have isAccepted := accepted h.language (List.mem_of_getElem? named)
  rw [cache, isAccepted.result_cacheAfter] at result
  refine ⟨h.language, c, (recalls.language doc stored).symm.trans named, result, ?_⟩
  unfold answerAfter
  rw [perform_completion, proposals]

/-- After any messages, a completion request for a document that is not open has no answer. For an
open one it shows what the first language that claims the document, newly made, proposes in the text
that was last written to it. Messages that neither write to the document nor close it do not change
the answer. Calls are answered as the messages that they carry. -/
theorem completion_answers_last_write (version : Bytes) (languages : List Language)
    (accepted : ∀ l ∈ languages, l.Accepted) (uri : Bytes) (line character : Nat) :
    (∀ history,
      (¬ IsOpen languages history uri →
        answerAfter version languages history uri line character = .null) ∧
      (IsOpen languages history uri → ∃ text, LastWrite languages history uri text) ∧
      ∀ text, LastWrite languages history uri text →
        ∃ l c, languageOf? languages uri = some l ∧
          (l.complete {} text (TextPosition.offset text line character) none).result = .ok c ∧
          answerAfter version languages history uri line character = shown c.proposals) ∧
    (∀ history m later, Idle languages history uri m →
      answerAfter version languages (history ++ m :: later) uri line character =
        answerAfter version languages (history ++ later) uri line character) ∧
    ∀ calls method params,
      ((make version languages).after calls).heard? method params =
        some (.completion uri line character) →
      (((make version languages).after calls).handle method params).2 =
        .result (answerAfter version languages ((make version languages).heard calls) uri line
          character) := by
  refine ⟨fun history => ⟨answerAfter_of_not_isOpen, exists_lastWrite,
    fun text => answerAfter_of_lastWrite accepted⟩, ?_, ?_⟩
  · intro history m later idle
    obtain ⟨sameOpen, sameWrite⟩ := idle.skip later
    by_cases opened : IsOpen languages (history ++ later) uri
    · obtain ⟨text, written⟩ := exists_lastWrite opened
      obtain ⟨l, c, named, result, answer⟩ := answerAfter_of_lastWrite accepted written
      obtain ⟨l', c', named', result', answer'⟩ :=
        answerAfter_of_lastWrite accepted ((sameWrite text).mpr written)
      cases named.symm.trans named'
      cases result.symm.trans result'
      exact answer'.trans answer.symm
    · rw [answerAfter_of_not_isOpen opened, answerAfter_of_not_isOpen (sameOpen.not.mpr opened)]
  · intro calls method params message
    rw [handle_of_heard? message, after_eq_told]
    rfl

/-- Two documents are written to in turn, and one of them is closed. -/
def interleaved : List Message := [
  .opened "file:///a.sum" "1" 1,
  .opened "file:///b.sum" "1 +" 1,
  .changed "file:///a.sum" 2 [.part, .whole "1 + "],
  .completion "file:///b.sum" 0 1,
  .closed "file:///b.sum",
  .saved "file:///b.sum" (some "1")]

/-- The first document needs a number, with or without a change that gives no whole text. The second
one is closed, and saving it does not open it. -/
theorem completion_answers_last_write_sums :
    ∃ l : Language, l.Accepted ∧
      LastWrite [l] interleaved "file:///a.sum" "1 + " ∧
      ¬ IsOpen [l] interleaved "file:///b.sum" ∧
      (∃ c, (l.complete {} "1 + " 4 none).result = .ok c ∧ c.candidates.tokens.keys = [1] ∧
        answerAfter "" [l] interleaved "file:///a.sum" 0 4 = shown c.proposals) ∧
      answerAfter "" [l] (interleaved ++ [.changed "file:///a.sum" 3 [.whole "", .part]])
          "file:///a.sum" 0 4 =
        answerAfter "" [l] interleaved "file:///a.sum" 0 4 ∧
      answerAfter "" [l] interleaved "file:///b.sum" 0 0 = .null := by
  have answered : (Language.make Language.sums Language.sumsSource).toOption.map (fun l =>
      ((l.complete {} "1 + " 4 none).result.toOption.map (fun c => c.candidates.tokens.keys),
        (((make "" [l]).told interleaved).documents.get? "file:///a.sum").map (fun doc => doc.text),
        (((make "" [l]).told interleaved).documents.get? "file:///b.sum").isSome)) =
      some (some [(1 : Symbol)], some ("1 + " : Bytes), false) := by
    decide +kernel
  obtain ⟨l, made, found⟩ := exists_ok_of_toOption answered
  simp only [Prod.mk.injEq] at found
  obtain ⟨asked, text, closed⟩ := found
  obtain ⟨c, result, keys⟩ := exists_ok_of_toOption asked
  have accepted : l.Accepted := ⟨Language.sums, Language.sumsSource, made, by decide +kernel⟩
  have written : LastWrite [l] interleaved "file:///a.sum" "1 + " :=
    ((recalls_told "" [l] interleaved _).lastWrite _).mpr (Option.map_eq_some_iff.mp text)
  have unopened : ¬ IsOpen [l] interleaved "file:///b.sum" := by
    rw [← (recalls_told "" [l] interleaved _).isOpen, closed]
    decide
  have idle : Idle [l] interleaved "file:///a.sum"
      (.changed "file:///a.sum" 3 [.whole "", .part]) := by
    refine ⟨by simp, fun text writes => ?_⟩
    cases writes with
    | changed _ last => cases last
  obtain ⟨histories, skips, -⟩ :=
    completion_answers_last_write "" [l] (by simpa using accepted) "file:///a.sum" 0 4
  obtain ⟨l', c', named, result', answer⟩ := (histories interleaved).2.2 _ written
  have first : l' = l := by
    obtain ⟨path, -, claims⟩ := Option.bind_eq_some_iff.mp named
    simpa using List.mem_of_find?_eq_some claims
  subst first
  have caret : TextPosition.offset "1 + " (0 : Nat) (4 : Nat) = 4 := by decide +kernel
  rw [caret] at result'
  cases result.symm.trans result'
  refine ⟨l', accepted, written, unopened, ⟨c, result, keys, answer⟩, skips _ _ [] idle, ?_⟩
  obtain ⟨histories, -⟩ :=
    completion_answers_last_write "" [l'] (by simpa using accepted) "file:///b.sum" 0 0
  exact (histories interleaved).1 unopened

end Server

end Editor

end GrammarCompletion
