import GrammarCompletion.Text.Bytes

/-!
# Sets of symbols as ranges

A symbol is the type of a token. Grammars number their tokens from one; the numbers below one are
reserved.

A set of 64-bit symbols is a list of closed ranges. The operations keep the list sorted, disjoint
and without touching neighbours as long as no bound is the least or the greatest symbol; at those
two ends the successor and predecessor of a bound wrap around, and the list is then only what the
operations say it is.
-/

namespace GrammarCompletion

abbrev Symbol := Int64

namespace Symbol

/-- The type of input that no lexer rule matches. -/
def invalid : Symbol := 0

def endOfInput : Symbol := -1

/-- "Nothing more is required", a mark in follow sets and never the type of a token. -/
def nothing : Symbol := -2

def firstUser : Symbol := 1

end Symbol

structure Absent where

/-- The fault of asking for a list that is longer than any list can be. -/
structure Overlong where
  deriving DecidableEq

structure Interval where
  lo : Int64
  hi : Int64
  deriving DecidableEq, Inhabited

namespace Interval

/-- The number of symbols of the range, modulo 2^64. -/
def size (r : Interval) : Int64 := r.hi - r.lo + 1

/-- The `count` symbols up to `last`, in front of `later`. -/
def valuesUpTo : (count : Nat) → (last : Int64) → (later : List Int64) → List Int64
  | 0, _, later => later
  | count + 1, last, later => valuesUpTo count (last - 1) (last :: later)

def valuesBefore (r : Interval) (later : List Int64) : List Int64 :=
  valuesUpTo (r.hi.toInt - r.lo.toInt + 1).toNat r.hi later

def text (r : Interval) : Bytes :=
  if r.lo = r.hi then Bytes.ofInt r.lo.toInt
  else Bytes.ofInt r.lo.toInt ++ ".." ++ Bytes.ofInt r.hi.toInt

end Interval

structure IntervalSet where
  ranges : List Interval
  deriving DecidableEq, Inhabited

namespace IntervalSet

def empty : IntervalSet := ⟨[]⟩

def isEmpty (s : IntervalSet) : Bool := s.ranges.isEmpty

/-- Put the range from `lo` to `hi` in front of the ranges `rs`, none of which ends before it, and
merge it with every range it overlaps or touches. -/
def absorb (lo hi : Int64) : List Interval → List Interval
  | [] => [⟨lo, hi⟩]
  | r :: rs =>
    if r.lo ≤ hi + 1 then
      absorb (if r.lo < lo then r.lo else lo) (if hi < r.hi then r.hi else hi) rs
    else ⟨lo, hi⟩ :: r :: rs

def insertRange (s : IntervalSet) (lo hi : Int64) : IntervalSet :=
  if hi < lo then s
  else
    let before := s.ranges.takeWhile fun r => r.hi < lo - 1
    let rest := s.ranges.dropWhile fun r => r.hi < lo - 1
    ⟨before ++ absorb lo hi rest⟩

def insert (s : IntervalSet) (v : Int64) : IntervalSet := s.insertRange v v

def ofList (values : List Int64) : IntervalSet := values.foldl insert empty

def range (lo hi : Int64) : IntervalSet := empty.insertRange lo hi

def singleton (v : Int64) : IntervalSet := ⟨[⟨v, v⟩]⟩

def union (s t : IntervalSet) : IntervalSet :=
  t.ranges.foldl (fun s r => s.insertRange r.lo r.hi) s

def searchBetween (rs : List Interval) (v : Int64) (first last : Nat) : Bool :=
  if first < last then
    let mid := (first + (last - 1)) / 2
    match rs[mid]? with
    | none => false
    | some r =>
      if v < r.lo then searchBetween rs v first mid
      else if r.hi < v then searchBetween rs v (mid + 1) last
      else true
  else false
termination_by last - first

def contains (s : IntervalSet) (v : Int64) : Bool :=
  searchBetween s.ranges v 0 s.ranges.length

def size (s : IntervalSet) : Int64 := s.ranges.foldl (fun n r => n + r.size) 0

def single? (s : IntervalSet) : Option Int64 :=
  match s.ranges with
  | [r] => if r.lo = r.hi then some r.lo else none
  | _ => none

def elements (s : IntervalSet) : List Int64 := s.ranges.foldr Interval.valuesBefore []

/-- How many symbols a list can hold, at eight bytes each in an address space of 2^48 bytes. -/
def mostListed : Int64 := 35184372088832

/-- The list of every symbol. Room for `size` symbols is made first, so a set with more symbols than
a list can hold, or so many that `size` wraps around to a negative number, is not listed at all. -/
def values (s : IntervalSet) : Except Overlong (List Int64) :=
  if s.size < 0 ∨ mostListed < s.size then .error ⟨⟩ else .ok s.elements

def closeGap (hi next : Int64) (out : IntervalSet) : IntervalSet :=
  if next ≤ hi then out.insertRange next hi else out

/-- The gaps between the ranges `rs` from `next` up to `hi`, added to `out`. Ranges that end below
`lo` are passed over; the first range that starts above `hi` ends the search. -/
def gaps (lo hi : Int64) : (next : Int64) → List Interval → (out : IntervalSet) → IntervalSet
  | next, [], out => closeGap hi next out
  | next, r :: rs, out =>
    if r.hi < lo then gaps lo hi next rs out
    else if hi < r.lo then closeGap hi next out
    else
      gaps lo hi (if next < r.hi + 1 then r.hi + 1 else next) rs
        (if next < r.lo then out.insertRange next (r.lo - 1) else out)

def complement (s : IntervalSet) (lo hi : Int64) : IntervalSet :=
  gaps lo hi lo s.ranges empty

def text (s : IntervalSet) : Bytes :=
  "\x7b" ++ Bytes.join ", " (s.ranges.map Interval.text) ++ "\x7d"

/-- A place that may hold a set. Adding something to an empty place is a fault, adding nothing is
not. -/
abbrev Slot := Option IntervalSet

namespace Slot

def read (slot : Slot) : IntervalSet := slot.getD empty

def insertRange (slot : Slot) (lo hi : Int64) : Except Absent Slot :=
  match slot with
  | some s => .ok (some (s.insertRange lo hi))
  | none => if hi < lo then .ok none else .error ⟨⟩

def insert (slot : Slot) (v : Int64) : Except Absent Slot := slot.insertRange v v

def union (slot other : Slot) : Except Absent Slot :=
  other.read.ranges.foldlM (fun slot r => Slot.insertRange slot r.lo r.hi) slot

end Slot

end IntervalSet

end GrammarCompletion
