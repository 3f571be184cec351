import GrammarCompletion.Text.Bytes

/-!
# Open documents
-/

namespace GrammarCompletion

structure Document (Lang : Type) where
  uri : Bytes
  language : Lang
  text : Bytes
  version : Int

/-- The open documents, no two of one name. -/
structure Documents (Lang : Type) where
  entries : List (Document Lang)

namespace Documents

variable {Lang : Type}

def empty : Documents Lang := ⟨[]⟩

def get? (d : Documents Lang) (uri : Bytes) : Option (Document Lang) :=
  d.entries.find? fun doc => doc.uri == uri

def close (d : Documents Lang) (uri : Bytes) : Documents Lang :=
  ⟨d.entries.filter fun doc => doc.uri != uri⟩

def put (d : Documents Lang) (doc : Document Lang) : Documents Lang :=
  ⟨doc :: (d.close doc.uri).entries⟩

/-- Replace the text of an open document; none if it is not open. -/
def update? (d : Documents Lang) (uri text : Bytes) (version : Int) : Option (Documents Lang) :=
  (d.get? uri).map fun doc => d.put { doc with text, version }

def size (d : Documents Lang) : Nat := d.entries.length

end Documents

end GrammarCompletion
