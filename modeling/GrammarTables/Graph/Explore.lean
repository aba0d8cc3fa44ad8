import GrammarTables.Interning
/-
# Discovering a graph whose vertices are computed

`explore` starts from some keys and follows labelled edges to further keys, giving each key
the number of its discovery.  Keys are expanded in the order in which they were found, so the
numbering is breadth first.  Both the states of a deterministic automaton and the states of an
item automaton are found this way.

The number of expansions is bounded by an argument: callers know a bound on the number of
different keys.
-/

namespace GrammarTables.Graph

variable {κ : Type} [DecidableEq κ]

/-- The keys found so far, and the edges of those that were expanded: a label and the number
of the target. -/
structure Discovery (κ : Type) where
  keys : Array κ
  rows : Array (List (Nat × Nat))

/-- Expands keys in the order of discovery, at most `bound` of them. -/
def expand (next : κ → List (Nat × κ)) : Nat → Discovery κ → Discovery κ
  | 0, d => d
  | bound + 1, d =>
    match d.keys[d.rows.size]? with
    | none => d
    | some k =>
      let edges := next k
      let (targets, keys) := internAll d.keys (edges.map (·.2))
      expand next bound ⟨keys, d.rows.push ((edges.map (·.1)).zip targets)⟩

/-- Everything that can be discovered from the starting keys, together with their numbers. -/
def explore (bound : Nat) (next : κ → List (Nat × κ)) (starts : List κ) :
    List Nat × Discovery κ :=
  let (numbers, keys) := internAll #[] starts
  (numbers, expand next bound ⟨keys, #[]⟩)

end GrammarTables.Graph
