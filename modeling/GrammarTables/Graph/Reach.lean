/-
# Reachability in finite graphs

The vertices of a graph are the numbers below some bound, and a function lists the direct
successors of each.  `reach` marks what can be reached from a list of vertices.  It serves
wherever something is closed under a relation: states under empty moves, patterns under
references, symbols under rules, lookaheads under propagation.
-/

namespace GrammarTables.Graph

/-! ## 1. The measure -/

/-- The number of edges that leave unmarked vertices below `n`. -/
def openEdges (succ : Nat → List Nat) (seen : Array Bool) : Nat → Nat
  | 0 => 0
  | n + 1 => openEdges succ seen n + if seen[n]? = some false then (succ n).length else 0

/-- Marking a vertex at or above the bound changes nothing below it. -/
theorem openEdges_mark_of_le (succ : Nat → List Nat) (seen : Array Bool) {v n : Nat} (h : n ≤ v) :
    openEdges succ (seen.setIfInBounds v true) n = openEdges succ seen n := by
  induction n with
  | zero => rfl
  | succ n ih =>
    have hne : v ≠ n := by omega
    simp only [openEdges, ih (by omega), Array.getElem?_setIfInBounds, hne, if_false]

/-- Marking a vertex takes its edges away. -/
theorem openEdges_mark (succ : Nat → List Nat) {seen : Array Bool} {v n : Nat} (h : v < n)
    (hv : seen[v]? = some false) :
    openEdges succ (seen.setIfInBounds v true) n + (succ v).length = openEdges succ seen n := by
  induction n with
  | zero => omega
  | succ n ih =>
    by_cases hvn : v = n
    · subst hvn
      have hlt : v < seen.size := by
        rw [Array.getElem?_eq_some_iff] at hv
        exact hv.1
      have hmark : (seen.setIfInBounds v true)[v]? = some true := by simp [hlt]
      simp only [openEdges, openEdges_mark_of_le succ seen (Nat.le_refl v), hv, hmark]
      simp
    · have := ih (by omega)
      simp only [openEdges, Array.getElem?_setIfInBounds, hvn, if_false]
      omega

/-! ## 2. The search -/

/-- Marks the vertices on the stack and everything that unmarked ones lead to. -/
def visit (succ : Nat → List Nat) (seen : Array Bool) : List Nat → Array Bool
  | [] => seen
  | v :: stack =>
    if seen[v]? = some false then visit succ (seen.setIfInBounds v true) (succ v ++ stack)
    else visit succ seen stack
termination_by stack => stack.length + openEdges succ seen seen.size
decreasing_by
  · rename_i h
    have hlt : v < seen.size := by
      rw [Array.getElem?_eq_some_iff] at h
      exact h.1
    have := openEdges_mark succ hlt h
    simp only [List.length_append, List.length_cons, Array.size_setIfInBounds]
    omega
  · simp

/-- Marks the vertices below `n` that can be reached from the seeds in any number of steps,
zero included. -/
def reach (n : Nat) (succ : Nat → List Nat) (seeds : List Nat) : Array Bool :=
  visit succ (Array.replicate n false) seeds

/-- The marked vertices, ascending. -/
def marked (seen : Array Bool) : List Nat := (List.range seen.size).filter fun v => seen.getD v false

/-- The vertices below `n` that can be reached from the seeds, ascending. -/
def reachable (n : Nat) (succ : Nat → List Nat) (seeds : List Nat) : List Nat :=
  marked (reach n succ seeds)

@[simp] theorem size_visit (succ : Nat → List Nat) (seen : Array Bool) (stack : List Nat) :
    (visit succ seen stack).size = seen.size := by
  fun_induction visit succ seen stack with
  | case1 => rfl
  | case2 seen v stack h ih => simpa using ih
  | case3 seen v stack h ih => exact ih

@[simp] theorem size_reach (n : Nat) (succ : Nat → List Nat) (seeds : List Nat) :
    (reach n succ seeds).size = n := by
  simp [reach]

end GrammarTables.Graph
