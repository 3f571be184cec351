import GrammarCompletion.Text.Bytes

/-!
# Files

Whoever runs the program says how files are read. What is read and what is said about a file that
cannot be read is decided here.
-/

namespace GrammarCompletion

inductive FileFault where
  | missing
  | isDirectory
  /-- Something on the path is no directory. -/
  | notDirectory
  | invalidName
  deriving DecidableEq, Inhabited

abbrev Files (m : Type → Type) := Bytes → m (Except FileFault Bytes)

structure FileError where
  path : Bytes
  fault : FileFault
  deriving DecidableEq

namespace FileError

def message (e : FileError) : Bytes :=
  match e.fault with
  | .missing => "open " ++ e.path ++ ": no such file or directory"
  | .isDirectory => "read " ++ e.path ++ ": is a directory"
  | .notDirectory => "open " ++ e.path ++ ": not a directory"
  | .invalidName => "open " ++ e.path ++ ": invalid argument"

end FileError

namespace Files

def read [Monad m] (files : Files m) (path : Bytes) : m (Except FileError Bytes) := do
  return (← files path).mapError fun fault => ⟨path, fault⟩

/-- The contents of a file that is opened first. A directory can be opened, and there is nothing to
read in it. -/
def readOpened [Monad m] (files : Files m) (path : Bytes) : m (Except FileError Bytes) := do
  match ← files.read path with
  | .error ⟨_, .isDirectory⟩ => return .ok []
  | result => return result

end Files

end GrammarCompletion
