import GrammarTables.Lexical.Dfa
import GrammarTables.Lexical.Table
/-
# From automata to cells

A cell says whether the scanner goes on, and whether the text so far is accepted by a rule that
may be followed by the next character.  Going on past an accepted text is safe only if the
scanner cannot get stuck later without another acceptance; where it can, the cell remembers the
acceptance.  `mayFail` computes where.

The cells are then encoded as numbers, and classes whose columns agree are merged.

The functions are `may_fail`, `encode`, and of `build` the choice of each cell (`accept_at`) and the
merging of columns.
-/

namespace GrammarTables.Lexical

/-! ## 1. Acceptance and failure -/

/-- An automaton together with the classes that must not follow each rule. -/
structure Matcher where
  dfa : Dfa
  /-- The number of classes. -/
  classes : Nat
  /-- For each rule, whether a class must not follow. -/
  excluded : Array (Array Bool)

namespace Matcher

/-- Whether a class must not follow a rule. -/
def excludes (m : Matcher) (rule k : Nat) : Bool := (m.excluded.getD rule #[]).getD k false

/-- The best rule that a state accepts before a class. -/
def acceptAt (m : Matcher) (s k : Nat) : Option Nat :=
  (m.dfa.acceptsOf s).find? fun r => !m.excludes r k

/-- Whether scanning gets stuck in a state before a class: no transition and no acceptance.  The
end of the input in a start is no failure. -/
def stuckAt (m : Matcher) (s k : Nat) : Bool :=
  (m.acceptAt s k).isNone && (m.dfa.step s k).isNone && !(k = eoiClass && m.dfa.isStart s)

/-- For each state, the states that go to it on some class without accepting before it. -/
def silentPredecessors (m : Matcher) : Array (List Nat) :=
  (List.range m.dfa.size).foldl (fun preds s =>
    (List.range m.classes).foldl (fun preds k =>
      match m.acceptAt s k, m.dfa.step s k with
      | none, some t => preds.modify t (s :: ·)
      | _, _ => preds) preds) (Array.replicate m.dfa.size [])

/-- The states from which scanning can get stuck before any rule accepts again. -/
def mayFail (m : Matcher) : Array Bool :=
  let preds := m.silentPredecessors
  let stuck := (List.range m.dfa.size).filter fun s => (List.range m.classes).any (m.stuckAt s)
  Graph.reach m.dfa.size (fun s => preds.getD s []) stuck

/-- The cell of a state and a class, where `fails` marks the states that may fail. -/
def cell (m : Matcher) (fails : Array Bool) (s k : Nat) : Cell :=
  match m.dfa.step s k, m.acceptAt s k with
  | some t, some r => if fails.getD t false then .backtrack (r + 1) t else .goto t
  | some t, none => .goto t
  | none, some r => .accept (r + 1)
  | none, none => if k = eoiClass && m.dfa.isStart s then .accept 0 else .invalid

/-- All cells, row by row. -/
def cells (m : Matcher) : List (List Cell) :=
  let fails := m.mayFail
  (List.range m.dfa.size).map fun s => (List.range m.classes).map (m.cell fails s)

end Matcher

/-! ## 2. Encoding -/

/-- The backtracking entries of some cells, in the order of first use. -/
def backtrackEntries (cells : List (List Cell)) : Array (Nat × Nat) :=
  (internAll #[] (cells.flatten.filterMap fun
    | .backtrack action state => some (action, state)
    | _ => none)).2

/-- The number of a cell. -/
def Cell.encode (entries : Array (Nat × Nat)) (firstRule : Int) : Cell → Int
  | .goto s => s
  | .backtrack action state => -2 - (entries.findIdx? (fun e => e = (action, state))).getD 0
  | .accept action => firstRule - action
  | .invalid => -1

/-! ## 3. Merging classes -/

/-- Classes with equal columns, merged. -/
structure Merge where
  /-- The merged class of each class. -/
  classOf : Array Nat
  /-- The first class of each merged class, ascending. -/
  representatives : List Nat

/-- The columns of a table, from the second on. -/
def columns (classes : Nat) (rows : Array (Array Int)) : List (List Int) :=
  (List.range (classes - 1)).map fun k => rows.toList.map fun row => row.getD (k + 1) (-1)

/-- The first place of each number below `n` in a list. -/
def firstPlaces (numbers : List Nat) (n : Nat) : List Nat := (List.range n).map numbers.idxOf

/-- Merges classes with equal columns.  The class of the end of the input stays alone. -/
def mergeClasses (classes : Nat) (rows : Array (Array Int)) : Merge :=
  let (numbers, distinct) := internAll #[] (columns classes rows)
  { classOf := (0 :: numbers.map (· + 1)).toArray
    representatives := 0 :: (firstPlaces numbers distinct.size).map (· + 1) }

end GrammarTables.Lexical
