import GrammarTables.Ascending
import GrammarTables.Halving
import GrammarTables.Interning
import GrammarTables.CharSet.Basic
import GrammarTables.Lexical.Table
/-
# Classes of code points

The bounds of some sets cut the code points up to `endMark` into intervals.  Going along the
intervals of each range of each set notes for every interval which sets it lies in.  Intervals that
lie in exactly the same sets are indistinguishable for an automaton whose moves read these sets, and
share a class.  Class 0 is the end of the input alone; the others are numbered from 1 by their
first code point.

The interval of a code point is found by halving the list of first code points (`interval_at`).
Ranges are meant to end at `endMark` at the latest; a range that begins after it meets no interval.

The functions are `new`, `interval_at`, `class_of` and `classes_of` of a partition.
-/

namespace GrammarTables.Lexical

/-- A partition of the code points up to `endMark` into classes. -/
structure Alphabet where
  /-- The first code point of each interval, ascending. -/
  starts : List Nat
  /-- The class of each interval. -/
  classes : List Nat
  /-- The number of classes. -/
  count : Nat

/-! ## 1. Intervals -/

/-- The first code points of the intervals that some sets cut out. -/
def cuts (sets : List CharSet) : List Nat :=
  let bounds := sets.flatMap fun s => s.ranges.flatMap fun r => [r.lo, r.hi + 1]
  (ascending (0 :: endMark :: bounds)).filter (· ≤ endMark)

/-- The number of the interval that a code point lies in, one less than the number of intervals that
begin at the code point or before. -/
def intervalAt (starts : List Nat) (c : Nat) : Nat :=
  partitionPoint (fun start => decide (start ≤ c)) starts 0 starts.length - 1

/-- The numbers of some intervals from number `k` on, up to the first that begins after `hi`. -/
def walkFrom (hi : Nat) : Nat → List Nat → List Nat
  | _, [] => []
  | k, start :: rest => if start ≤ hi then k :: walkFrom hi (k + 1) rest else []

/-- The numbers of the intervals that a range goes along. -/
def walk (starts : List Nat) (r : CodeRange) : List Nat :=
  if endMark < r.lo then []
  else
    let k := intervalAt starts r.lo
    walkFrom r.hi k (starts.drop k)

/-- The numbers of the intervals that the ranges of a set go along. -/
def walkSet (starts : List Nat) (s : CharSet) : List Nat := s.ranges.flatMap (walk starts)

/-- The numbers of the sets whose ranges go along each interval. -/
def signatures (starts : List Nat) (sets : List CharSet) : Array (List Nat) :=
  sets.zipIdx.foldl (fun signatures (s, id) =>
    (walkSet starts s).foldl (fun signatures k => signatures.modify k (· ++ [id])) signatures)
    (Array.replicate starts.length [])

/-! ## 2. Classes -/

namespace Alphabet

/-- The coarsest partition that tells the given sets apart. -/
def of (sets : List CharSet) : Alphabet :=
  let starts := cuts sets
  let signed := (starts.zip (signatures starts sets).toList).filter fun i => i.1 < endMark
  let (numbers, keys) := internAll #[] (signed.map (·.2))
  { starts, classes := numbers.map (· + 1) ++ [eoiClass], count := keys.size + 1 }

/-- The number of the interval that a code point lies in. -/
def intervalOf (a : Alphabet) (c : Nat) : Nat := intervalAt a.starts c

/-- The class of a code point. -/
def classOf (a : Alphabet) (c : Nat) : Nat := a.classes.getD (a.intervalOf c) eoiClass

/-- The classes of the intervals that the ranges of a set go along, ascending. -/
def classesOf (a : Alphabet) (s : CharSet) : List Nat :=
  ascending ((walkSet a.starts s).map fun k => a.classes.getD k eoiClass)

/-- The first code points of the intervals after each one, `endMark + 1` after the last. -/
def stops (a : Alphabet) : List Nat := a.starts.drop 1 ++ [endMark + 1]

/-- The first and the last code point and the class of each interval. -/
def intervals (a : Alphabet) : List (Nat × Nat × Nat) :=
  ((a.starts.zip a.stops).zip a.classes).map fun ((first, next), k) => (first, next - 1, k)

end Alphabet

end GrammarTables.Lexical
