import GrammarTables.Ascending
import GrammarTables.Graph.Explore
import GrammarTables.Graph.Reach
/-
# Deterministic automata

The subset construction: a state of the deterministic automaton is the set of all states that a
nondeterministic one can be in after reading the same classes, kept as an ascending list.  States
are numbered in the order of discovery, those for the given starts first.

The functions are `closure` and `build` of the subset construction.
-/

namespace GrammarTables.Lexical

/-- An automaton whose moves read classes of code points. -/
structure ClassNfa where
  /-- The targets of the moves that read nothing, for each state. -/
  silent : Array (List Nat)
  /-- The classes and targets of the other moves, for each state. -/
  moves : Array (List (Nat × Nat))
  /-- The rule that each state accepts. -/
  accept : Array (Option Nat)

namespace ClassNfa

/-- The states that can be reached from the seeds without reading, ascending. -/
def closure (a : ClassNfa) (seeds : List Nat) : List Nat :=
  Graph.reachable a.silent.size (fun s => a.silent.getD s []) seeds

/-- The targets of the moves from some states, collected by class. -/
def targets (a : ClassNfa) (classes : Nat) (set : List Nat) : Array (List Nat) :=
  (set.flatMap fun s => a.moves.getD s []).foldl
    (fun buckets (k, t) => buckets.modify k (t :: ·)) (Array.replicate classes [])

/-- The sets that follow a set of states, for each class that can be read, ascending. -/
def next (a : ClassNfa) (classes : Nat) (set : List Nat) : List (Nat × List Nat) :=
  (a.targets classes set).toList.zipIdx.filterMap fun (seeds, k) =>
    if seeds.isEmpty then none else some (k, a.closure seeds)

/-- The rules that some states accept, the best first. -/
def accepted (a : ClassNfa) (before : Nat → Nat → Bool) (set : List Nat) : List Nat :=
  sortBy before (set.filterMap fun s => (a.accept.getD s none))

end ClassNfa

/-- A deterministic automaton with several starts. -/
structure Dfa where
  /-- The states of the nondeterministic automaton that each state stands for. -/
  sets : Array (List Nat)
  /-- The transitions of each state, by class. -/
  rows : Array (Array (Option Nat))
  /-- The rules that each state accepts, the best first. -/
  accepts : Array (List Nat)
  starts : List Nat

namespace Dfa

/-- The number of states. -/
def size (d : Dfa) : Nat := d.sets.size

/-- The state after reading a class. -/
def step (d : Dfa) (s k : Nat) : Option Nat := (d.rows.getD s #[]).getD k none

/-- The rules that a state accepts, the best first. -/
def acceptsOf (d : Dfa) (s : Nat) : List Nat := d.accepts.getD s []

/-- Whether a state is one of the starts. -/
def isStart (d : Dfa) (s : Nat) : Bool := d.starts.contains s

/-- A row of transitions, by class. -/
def rowOf (classes : Nat) (edges : List (Nat × Nat)) : Array (Option Nat) :=
  edges.foldl (fun row (k, t) => row.setIfInBounds k (some t)) (Array.replicate classes none)

/-- The subset construction.  `before` ranks the rules that a state accepts. -/
def ofNfa (a : ClassNfa) (starts : List Nat) (classes : Nat) (before : Nat → Nat → Bool) : Dfa :=
  let (numbers, d) := Graph.explore (Nat.pow 2 a.silent.size) (a.next classes)
    (starts.map fun s => a.closure [s])
  { sets := d.keys
    rows := d.rows.map (rowOf classes)
    accepts := d.keys.map (a.accepted before)
    starts := numbers }

/-- The automaton in which the starts accept nothing. -/
def withoutEmptyMatches (d : Dfa) : Dfa :=
  { d with accepts := d.starts.foldl (fun acc s => acc.setIfInBounds s []) d.accepts }

/-- The state after reading a list of classes. -/
def run (d : Dfa) (s : Nat) : List Nat → Option Nat
  | [] => some s
  | k :: ks => (d.step s k).bind fun t => d.run t ks

end Dfa

end GrammarTables.Lexical
