import GrammarCompletion.Text.Rune

/-!
# Slash-separated paths
-/

namespace GrammarCompletion.Path

def slash : UInt8 := 0x2F
def dot : UInt8 := 0x2E

def isAbsolute : Bytes → Bool
  | b :: _ => b == slash
  | [] => false

/-- Append an element to those kept so far, newest first. An element that leads up takes the last
one back; above the root there is nothing, and above a relative start it stays. -/
def keep (absolute : Bool) (kept : List Bytes) (element : Bytes) : List Bytes :=
  if element = [] ∨ element = [dot] then kept
  else if element = [dot, dot] then
    match kept with
    | [] => if absolute then [] else [element]
    | last :: rest => if last = [dot, dot] then element :: kept else rest
  else element :: kept

/-- The shortest path that names the same file: no empty elements, no `.`, and `..` only in front of
a relative path. The empty path is `.`. -/
def clean (path : Bytes) : Bytes :=
  let absolute := isAbsolute path
  let elements := ((path.splitOn slash).foldl (keep absolute) []).reverse
  let joined := Bytes.join [slash] elements
  if absolute then slash :: joined else if joined.isEmpty then [dot] else joined

def directory (path : Bytes) : Bytes :=
  clean (path.reverse.dropWhile (· ≠ slash)).reverse

/-- The end of the last element from its last dot on; empty without a dot. -/
def extension (path : Bytes) : Bytes :=
  let last := (path.reverse.takeWhile (· ≠ slash)).reverse
  if last.contains dot then dot :: (last.reverse.takeWhile (· ≠ dot)).reverse else []

/-- Whether a path names something below a directory: a text of UTF-8 whose elements are names. The
directory itself is `.`. -/
def isLocal (path : Bytes) : Bool :=
  path.isUtf8 && !path.contains 0 &&
    (path = [dot] ||
      (path.splitOn slash).all fun e => e ≠ [] && e ≠ [dot] && e ≠ [dot, dot])

end GrammarCompletion.Path
