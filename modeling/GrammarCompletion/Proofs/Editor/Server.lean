import GrammarCompletion.Editor.Server
import GrammarCompletion.Proofs.Editor.Position
import GrammarCompletion.Proofs.Language.Answers

/-!
# Servers answer at every position

Whatever a server is told, it keeps its languages, each with the cache that some requests to it have
left, and every open document belongs to one of them. A position of a document stands for an offset
of its text. So a server never asks a language for a completion that fails.
-/

namespace GrammarCompletion

theorem Language.cacheAfter_concat (l : Language) (served : List Inquiry) (i : Inquiry) :
    l.cacheAfter (served ++ [i]) =
      (l.complete (l.cacheAfter served) i.text i.offset i.evaluator).cache := by
  simp [cacheAfter]

namespace Documents

variable {Lang : Type} {d : Documents Lang} {doc other : Document Lang} {uri text : Bytes}

theorem mem_of_mem_close (h : doc ∈ (d.close uri).entries) : doc ∈ d.entries :=
  (List.mem_filter.mp h).1

theorem eq_or_mem_of_mem_put (h : other ∈ (d.put doc).entries) : other = doc ∨ other ∈ d.entries := by
  rcases List.mem_cons.mp h with h | h
  · exact .inl h
  · exact .inr (mem_of_mem_close h)

theorem mem_of_get? (h : d.get? uri = some doc) : doc ∈ d.entries := List.mem_of_find?_eq_some h

theorem language_of_mem_update? {version : Int}
    (h : doc ∈ ((d.update? uri text version).getD d).entries) :
    ∃ old ∈ d.entries, doc.language = old.language := by
  unfold update? at h
  cases found : d.get? uri with
  | none =>
    rw [found] at h
    exact ⟨doc, h, rfl⟩
  | some old =>
    rw [found] at h
    rcases eq_or_mem_of_mem_put h with rfl | kept
    · exact ⟨old, mem_of_get? found, rfl⟩
    · exact ⟨doc, kept, rfl⟩

end Documents

namespace Editor.Server

def after (s : Server) (calls : List (Bytes × Json)) : Server :=
  calls.foldl (fun s call => (s.handle call.1 call.2).1) s

theorem getElem?_keepCache (s : Server) (language : Nat) (cache : Cache) (i : Nat) :
    (s.keepCache language cache).hosted[i]? =
      s.hosted[i]?.map fun h => if language = i then { h with cache } else h := by
  rw [keepCache, List.getElem?_modify]
  by_cases same : language = i
  · simp [same]
  · simp [same]

/-- The server hosts the languages, and all its documents belong to them. -/
structure Hosts (s : Server) (languages : List Language) : Prop where
  languages : s.hosted.map Hosted.language = languages
  served : ∀ (i : Nat) (h : Hosted), s.hosted[i]? = some h →
    ∃ served, h.cache = h.language.cacheAfter served
  hosted : ∀ doc ∈ s.documents.entries, doc.language < s.hosted.length

namespace Hosts

variable {s : Server} {languages : List Language}

theorem make (version : Bytes) (languages : List Language) :
    (Server.make version languages).Hosts languages where
  languages := by simp [Server.make, Function.comp_def]
  served i h found := by
    rw [Server.make, List.getElem?_map] at found
    obtain ⟨l, -, rfl⟩ := Option.map_eq_some_iff.mp found
    exact ⟨[], rfl⟩
  hosted := by simp [Server.make, Documents.empty]

/-- Documents come and go, but only of languages that are hosted. -/
theorem setDocuments (hs : s.Hosts languages) {documents : Documents Nat}
    (known : ∀ doc ∈ documents.entries, doc.language < s.hosted.length) :
    ({ s with documents := documents } : Server).Hosts languages :=
  ⟨hs.languages, hs.served, known⟩

theorem openDocument (hs : s.Hosts languages) (uri text : Bytes) (version : Int) :
    (s.openDocument uri text version).Hosts languages := by
  unfold Server.openDocument
  split
  · exact hs
  · next path _ =>
    split
    · exact hs
    · next language found =>
      apply hs.setDocuments
      intro doc member
      rcases Documents.eq_or_mem_of_mem_put member with rfl | kept
      · exact (List.findIdx?_eq_some_iff_getElem.mp found).choose
      · exact hs.hosted doc kept

theorem writeDocument (hs : s.Hosts languages) (uri text : Bytes) (version : Int) :
    (s.writeDocument uri text version).Hosts languages := by
  apply hs.setDocuments
  intro doc member
  obtain ⟨old, kept, same⟩ := Documents.language_of_mem_update? member
  rw [same]
  exact hs.hosted old kept

theorem closeDocument (hs : s.Hosts languages) (uri : Bytes) :
    ({ s with documents := s.documents.close uri } : Server).Hosts languages := by
  apply hs.setDocuments
  exact fun doc member => hs.hosted doc (Documents.mem_of_mem_close member)

/-- A request to a language extends the requests it has served. -/
theorem keepCache (hs : s.Hosts languages) {language : Nat} {h : Hosted}
    (found : s.hosted[language]? = some h) (text : Bytes) (offset : Int)
    (evaluator : Option Evaluator) :
    (s.keepCache language (h.language.complete h.cache text offset evaluator).cache).Hosts
      languages := by
  constructor
  case languages =>
    rw [← hs.languages]
    apply List.ext_getElem?
    intro i
    rw [List.getElem?_map, List.getElem?_map, getElem?_keepCache, Option.map_map]
    congr 1
    funext other
    rw [Function.comp_apply]
    split
    · rfl
    · rfl
  case served =>
    intro i other kept
    rw [getElem?_keepCache] at kept
    obtain ⟨old, before, rfl⟩ := Option.map_eq_some_iff.mp kept
    obtain ⟨served, cache⟩ := hs.served i old before
    by_cases same : language = i
    · subst same
      cases found.symm.trans before
      refine ⟨served ++ [⟨text, offset, evaluator⟩], ?_⟩
      rw [if_pos rfl, Language.cacheAfter_concat, ← cache]
    · rw [if_neg same]
      exact ⟨served, cache⟩
  case hosted =>
    intro doc member
    simpa [Server.keepCache] using hs.hosted doc member

theorem complete (hs : s.Hosts languages) (uri : Bytes) (line character : Nat) :
    (s.complete uri line character).1.Hosts languages := by
  unfold Server.complete
  split
  · exact hs
  · next doc _ =>
    split
    · exact hs
    · next h found => exact hs.keepCache found _ _ _

theorem perform (hs : s.Hosts languages) (message : Message) :
    (s.perform message).1.Hosts languages := by
  cases message with
  | start | shutdown => exact ⟨hs.languages, hs.served, hs.hosted⟩
  | initialized | setTrace => exact hs
  | opened uri text version => exact hs.openDocument uri text version
  | changed uri version changes =>
    simp only [Server.perform]
    split
    · exact hs.writeDocument uri _ version
    · exact hs
  | closed uri => exact hs.closeDocument uri
  | saved uri text =>
    simp only [Server.perform]
    split
    · exact hs.writeDocument uri _ _
    · exact hs
  | completion uri line character => exact hs.complete uri line character

theorem handle (hs : s.Hosts languages) (method : Bytes) (params : Json) :
    (s.handle method params).1.Hosts languages := by
  unfold Server.handle
  split
  · exact hs
  · split
    · exact hs
    · split
      · exact hs
      · next message _ => exact hs.perform message

theorem after (hs : s.Hosts languages) (calls : List (Bytes × Json)) :
    (s.after calls).Hosts languages := by
  induction calls generalizing s with
  | nil => exact hs
  | cons call calls ih => exact ih (hs.handle call.1 call.2)

/-- The language of an open document answers at every position of it. -/
theorem exists_completion (hs : s.Hosts languages) (accepted : ∀ l ∈ languages, l.Accepted)
    {uri : Bytes} {doc : Document Nat} (opened : s.documents.get? uri = some doc)
    (line character : Nat) :
    ∃ h c, s.hosted[doc.language]? = some h ∧ languages[doc.language]? = some h.language ∧
      (h.language.complete h.cache doc.text (TextPosition.offset doc.text line character)
        none).result = .ok c ∧
      (s.complete uri line character).2 = c.proposals := by
  have inside := hs.hosted doc (Documents.mem_of_get? opened)
  obtain ⟨h, found⟩ : ∃ h, s.hosted[doc.language]? = some h := ⟨_, List.getElem?_eq_getElem inside⟩
  have named : languages[doc.language]? = some h.language := by
    rw [← hs.languages, List.getElem?_map, found, Option.map_some]
  obtain ⟨served, cache⟩ := hs.served _ h found
  have isAccepted := accepted h.language (List.mem_of_getElem? named)
  have valid := TextPosition.offset_le_length doc.text line character
  have inText : (0 : Int) ≤ TextPosition.offset doc.text line character ∧
      (TextPosition.offset doc.text line character : Int) ≤ doc.text.length := by omega
  obtain ⟨c, result, -⟩ :=
    isAccepted.exists_answer (isAccepted.safe_cacheAfter served) inText none
  rw [← cache] at result
  refine ⟨h, c, found, named, result, ?_⟩
  unfold Server.complete
  simp only [opened, found, result]

end Hosts

/-- A request to a language fails, with an invalid argument, if and only if its offset lies outside of
the text, whatever was asked before. Any other request is answered by a search that stays in its
window and in the automaton. So a server shows what the language proposes at every position of every
open document. -/
theorem complete_fails_iff_outside (version : Bytes) (languages : List Language)
    (accepted : ∀ l ∈ languages, l.Accepted) :
    (∀ l ∈ languages, l.grammar.automaton.Closed ∧ ∀ served text offset evaluator,
      ((∃ e, (l.complete (l.cacheAfter served) text offset evaluator).result = .error e) ↔
        offset < 0 ∨ (text.length : Int) < offset) ∧
      (∀ e, (l.complete (l.cacheAfter served) text offset evaluator).result = .error e →
        e = .offsetOutside offset text.length ∧
          ∃ reason, e.message = "invalid argument: " ++ reason) ∧
      ∀ c, (l.complete (l.cacheAfter served) text offset evaluator).result = .ok c →
        l.Answers (l.cacheAfter served) text offset c) ∧
    ∀ calls uri doc (line character : Nat),
      ((make version languages).after calls).documents.get? uri = some doc →
      ∃ h c, ((make version languages).after calls).hosted[doc.language]? = some h ∧
        languages[doc.language]? = some h.language ∧
        (h.language.complete h.cache doc.text (TextPosition.offset doc.text line character)
          none).result = .ok c ∧
        (((make version languages).after calls).complete uri line character).2 = c.proposals := by
  constructor
  · intro l member
    have isAccepted := accepted l member
    refine ⟨isAccepted.closed, fun served text offset evaluator => ⟨?_, ?_, ?_⟩⟩
    · simp [isAccepted.error_iff]
    · intro e failed
      obtain ⟨-, rfl⟩ := (isAccepted.error_iff served text offset evaluator e).mp failed
      exact ⟨rfl, RequestError.message_offsetOutside offset text.length⟩
    · intro c result
      by_cases outside : offset < 0 ∨ (text.length : Int) < offset
      · rw [Language.complete_of_outside _ outside] at result
        cases result
      · have valid : 0 ≤ offset ∧ offset ≤ text.length := by omega
        obtain ⟨c', result', answers⟩ :=
          isAccepted.exists_answer (isAccepted.safe_cacheAfter served) valid evaluator
        cases result.symm.trans result'
        exact answers
  · intro calls uri doc line character opened
    exact ((Hosts.make version languages).after calls).exists_completion accepted opened line character

/-- An editor that starts up and opens a document. -/
def opening : List (Bytes × Json) := [
  ("initialize", .null),
  ("textDocument/didOpen", .object [("textDocument", .object [
    ("uri", .text "file:///a.sum"), ("version", .number 1), ("text", .text "1 +\n+2")])])]

/-- In the second line of the document a number is missing. -/
theorem complete_fails_iff_outside_sums :
    ∃ l : Language, l.Accepted ∧
      (∃ e, (l.complete (l.cacheAfter []) "1 +\n+2" 7 none).result = .error e) ∧
      (∃ c, (l.complete (l.cacheAfter [⟨"1+", 2, none⟩]) "1 +\n+2" 4 none).result = .ok c ∧
        c.candidates.tokens.keys = [1] ∧
        l.Answers (l.cacheAfter [⟨"1+", 2, none⟩]) "1 +\n+2" 4 c) ∧
      ∃ (doc : Document Nat) (h : Hosted) (c : Completion),
        ((make "" [l]).after opening).documents.get? "file:///a.sum" = some doc ∧
        doc.text = "1 +\n+2" ∧ h.language = l ∧
        (l.complete h.cache doc.text (TextPosition.offset doc.text 1 0) none).result = .ok c ∧
        (((make "" [l]).after opening).complete "file:///a.sum" 1 0).2 = c.proposals := by
  have answered : (Language.make Language.sums Language.sumsSource).toOption.map (fun l =>
      ((l.complete (l.cacheAfter [⟨"1+", 2, none⟩]) "1 +\n+2" 4 none).result.toOption.map
          (fun c => c.candidates.tokens.keys),
        (((make "" [l]).after opening).documents.get? "file:///a.sum").map
          fun doc => (doc.text, doc.language))) =
      some (some [(1 : Symbol)], some (("1 +\n+2" : Bytes), 0)) := by
    decide +kernel
  obtain ⟨l, made, found⟩ := exists_ok_of_toOption answered
  simp only [Prod.mk.injEq] at found
  obtain ⟨keys, opened⟩ := found
  obtain ⟨c, result, keys⟩ := exists_ok_of_toOption keys
  obtain ⟨doc, opened, fields⟩ := Option.map_eq_some_iff.mp opened
  simp only [Prod.mk.injEq] at fields
  have accepted : l.Accepted := ⟨Language.sums, Language.sumsSource, made, by decide +kernel⟩
  obtain ⟨requests, served⟩ := complete_fails_iff_outside "" [l] (by simpa using accepted)
  have request := (requests l (by simp)).2
  obtain ⟨h, c', -, named, shown, proposals⟩ := served opening "file:///a.sum" doc 1 0 opened
  rw [fields.2, List.getElem?_cons_zero, Option.some.injEq] at named
  rw [← named] at shown
  refine ⟨l, accepted, ?_, ⟨c, result, keys, (request _ _ _ _).2.2 c result⟩,
    doc, h, c', opened, fields.1, named.symm, shown, proposals⟩
  exact (request [] "1 +\n+2" 7 none).1.mpr (.inr (by decide))

end Editor.Server

end GrammarCompletion
