import GrammarTables.Ascending
import GrammarTables.Graph.Reach
import GrammarTables.Lr.Productions
/-
# What a symbol can begin with

A symbol is nullable if it derives the empty string.  It can begin with a terminal if a chain of
symbols leads to it, each standing in a right side of the one before after nullable symbols only.

The functions are `compute` and `of_seq` of the first terminals.
-/

namespace GrammarTables.Lr

/-! ## 1. Nullable symbols -/

/-- Whether all symbols of a list are marked. -/
def allMarked (marks : Array Bool) (symbols : List Nat) : Bool :=
  symbols.all fun x => marks.getD x false

/-- Marks the left side of each production whose right side is marked. -/
def nullableRound (p : Productions) (marks : Array Bool) : Array Bool :=
  (List.range p.size).foldl (fun marks rule =>
    if allMarked marks (p.rightOf rule) then marks.setIfInBounds (p.leftOf rule) true
    else marks) marks

/-- Marks the nullable symbols.  Each round but the last marks a symbol, so as many rounds as
there are symbols suffice. -/
def nullableMarks (p : Productions) : Array Bool :=
  Nat.repeat (nullableRound p) p.byLeft.size (Array.replicate p.byLeft.size false)

/-! ## 2. First terminals -/

/-- The symbols of a list up to the first one that is not nullable, that one included. -/
def leading (marks : Array Bool) : List Nat → List Nat
  | [] => []
  | x :: xs => x :: if marks.getD x false then leading marks xs else []

/-- Nullability and first terminals of all symbols. -/
structure FirstSets where
  nullable : Array Bool
  /-- The terminals that each symbol can begin with, ascending. -/
  first : Array (List Nat)

namespace FirstSets

/-- Nullability and first terminals of the symbols of some productions. -/
def ofProductions (p : Productions) : FirstSets :=
  let nullable := nullableMarks p
  let succ := (List.range p.byLeft.size).map (fun x =>
    (p.rulesOf x).flatMap fun rule => leading nullable (p.rightOf rule)) |>.toArray
  { nullable
    first := ((List.range p.byLeft.size).map fun x =>
      (Graph.reachable p.byLeft.size (fun y => succ.getD y []) [x]).filter
        (· < p.terminals)).toArray }

/-- The terminals that a symbol can begin with. -/
def firstOf (f : FirstSets) (x : Nat) : List Nat := f.first.getD x []

/-- Whether all symbols of a sequence are nullable. -/
def isNullable (f : FirstSets) (xs : List Nat) : Bool := allMarked f.nullable xs

/-- The terminals that a sequence of symbols can begin with, ascending. -/
def ofSeq (f : FirstSets) (xs : List Nat) : List Nat :=
  ascending ((leading f.nullable xs).flatMap f.firstOf)

end FirstSets

end GrammarTables.Lr
