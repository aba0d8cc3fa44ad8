import Mathlib.Logic.Relation
import GrammarTables.Graph.Reach
/-
# Reachability in finite graphs: what the search marks

`reach` marks exactly the vertices below the bound that a path from a seed leads to
(`reach_iff`).  The search keeps two invariants: whatever is marked was marked before or can be
reached from the stack, and the successors of a marked vertex are marked or on the stack.
-/

namespace GrammarTables.Graph

/-! ## 1. Marks -/

/-- A vertex is marked. -/
def Marked (seen : Array Bool) (v : Nat) : Prop := seen[v]? = some true

theorem marked_iff_getD {seen : Array Bool} {v : Nat} :
    Marked seen v ↔ seen.getD v false = true := by
  unfold Marked
  rw [Array.getD_eq_getD_getElem?]
  cases seen[v]? with
  | none => simp
  | some b => simp

theorem marked_setIfInBounds {seen : Array Bool} {v w : Nat} :
    Marked (seen.setIfInBounds v true) w ↔ Marked seen w ∨ (w = v ∧ v < seen.size) := by
  unfold Marked
  rw [Array.getElem?_setIfInBounds]
  split
  · rename_i hvw
    subst hvw
    split
    · rename_i hlt
      simp [hlt]
    · rename_i hlt
      simp [hlt]
  · rename_i hvw
    constructor
    · exact Or.inl
    · rintro (h | ⟨rfl, -⟩)
      · exact h
      · exact absurd rfl hvw

/-- A vertex below the bound is marked or not. -/
theorem marked_of_not_open {seen : Array Bool} {v : Nat} (hlt : v < seen.size)
    (h : ¬ seen[v]? = some false) : Marked seen v := by
  unfold Marked
  rw [Array.getElem?_eq_getElem hlt] at h ⊢
  cases hv : seen[v] with
  | false => exact absurd (congrArg some hv) h
  | true => rfl

theorem lt_of_marked {seen : Array Bool} {v : Nat} (h : Marked seen v) : v < seen.size :=
  (Array.getElem?_eq_some_iff.mp h).1

/-- Marks are determined by the numbers that are marked. -/
theorem marks_ext {marks marks' : Array Bool} (hsize : marks.size = marks'.size)
    (h : ∀ x, Marked marks x ↔ Marked marks' x) : marks = marks' := by
  refine Array.ext hsize fun x hx hx' => ?_
  have hiff := h x
  rw [Marked, Marked, Array.getElem?_eq_getElem hx, Array.getElem?_eq_getElem hx'] at hiff
  rw [Bool.eq_iff_iff]
  simpa using hiff

/-! ## 2. Paths -/

/-- A path from one vertex to another whose vertices, but perhaps the first, lie below `n`. -/
def Leads (n : Nat) (succ : Nat → List Nat) : Nat → Nat → Prop :=
  Relation.ReflTransGen fun v w => w ∈ succ v ∧ w < n

/-- Whatever the search marks was marked before or can be reached from the stack. -/
theorem leads_of_marked_visit {succ : Nat → List Nat} {seen : Array Bool} {stack : List Nat}
    {w : Nat} (h : Marked (visit succ seen stack) w) :
    Marked seen w ∨ ∃ v ∈ stack, v < seen.size ∧ Leads seen.size succ v w := by
  fun_induction visit succ seen stack with
  | case1 => exact Or.inl h
  | case2 seen v stack hv ih =>
    have hlt : v < seen.size := (Array.getElem?_eq_some_iff.mp hv).1
    rcases ih h with h | ⟨u, hu, hult, hp⟩
    · rcases marked_setIfInBounds.mp h with h | ⟨rfl, -⟩
      · exact Or.inl h
      · exact Or.inr ⟨w, by simp, hlt, .refl⟩
    · rw [Array.size_setIfInBounds] at hult hp
      rcases List.mem_append.mp hu with hu | hu
      · exact Or.inr ⟨v, by simp, hlt, .head ⟨hu, hult⟩ hp⟩
      · exact Or.inr ⟨u, by simp [hu], hult, hp⟩
  | case3 seen v stack hv ih =>
    rcases ih h with h | ⟨u, hu, hult, hp⟩
    · exact Or.inl h
    · exact Or.inr ⟨u, by simp [hu], hult, hp⟩

/-- The search forgets no mark. -/
theorem marked_visit_of_marked {succ : Nat → List Nat} {seen : Array Bool} {stack : List Nat}
    {w : Nat} (h : Marked seen w) : Marked (visit succ seen stack) w := by
  fun_induction visit succ seen stack with
  | case1 => exact h
  | case2 seen v stack hv ih => exact ih (marked_setIfInBounds.mpr (Or.inl h))
  | case3 seen v stack hv ih => exact ih h

/-- The search marks whatever is on the stack. -/
theorem marked_visit_of_mem {succ : Nat → List Nat} {seen : Array Bool} {stack : List Nat}
    {w : Nat} (h : w ∈ stack) (hlt : w < seen.size) : Marked (visit succ seen stack) w := by
  fun_induction visit succ seen stack with
  | case1 => exact absurd h (by simp)
  | case2 seen v stack hv ih =>
    rcases List.mem_cons.mp h with rfl | h
    · exact marked_visit_of_marked (marked_setIfInBounds.mpr (Or.inr ⟨rfl, hlt⟩))
    · exact ih (by simp [h]) (by simpa using hlt)
  | case3 seen v stack hv ih =>
    rcases List.mem_cons.mp h with rfl | h
    · exact marked_visit_of_marked (marked_of_not_open hlt hv)
    · exact ih h hlt

/-- If successors of marked vertices are marked or on the stack, then in the end successors of
marked vertices are marked. -/
theorem marked_visit_of_succ {succ : Nat → List Nat} {seen : Array Bool} {stack : List Nat}
    (hseen : ∀ v w, Marked seen v → w ∈ succ v → w < seen.size → Marked seen w ∨ w ∈ stack)
    {v w : Nat} (hv : Marked (visit succ seen stack) v) (hw : w ∈ succ v) (hlt : w < seen.size) :
    Marked (visit succ seen stack) w := by
  fun_induction visit succ seen stack with
  | case1 =>
    rcases hseen v w hv hw hlt with h | h
    · exact h
    · exact absurd h (by simp)
  | case2 seen u stack hu ih =>
    refine ih ?_ hv (by simpa using hlt)
    intro a b ha hb hblt
    rw [Array.size_setIfInBounds] at hblt
    rcases marked_setIfInBounds.mp ha with ha | ⟨rfl, -⟩
    · rcases hseen a b ha hb hblt with h | h
      · exact Or.inl (marked_setIfInBounds.mpr (Or.inl h))
      · rcases List.mem_cons.mp h with rfl | h
        · exact Or.inl (marked_setIfInBounds.mpr (Or.inr ⟨rfl, hblt⟩))
        · exact Or.inr (by simp [h])
    · exact Or.inr (by simp [hb])
  | case3 seen u stack hu ih =>
    refine ih ?_ hv hlt
    intro a b ha hb hblt
    rcases hseen a b ha hb hblt with h | h
    · exact Or.inl h
    · rcases List.mem_cons.mp h with rfl | h
      · exact Or.inl (marked_of_not_open hblt hu)
      · exact Or.inr h

/-! ## 3. Reachability -/

/-- **The search marks exactly what the seeds lead to.** -/
theorem reach_iff {n : Nat} {succ : Nat → List Nat} {seeds : List Nat} {w : Nat} :
    Marked (reach n succ seeds) w ↔ ∃ v ∈ seeds, v < n ∧ Leads n succ v w := by
  have hnone : ∀ v, ¬ Marked (Array.replicate n false) v := by
    intro v h
    simp [Marked, Array.getElem?_replicate] at h
  constructor
  · intro h
    rcases leads_of_marked_visit h with h | h
    · exact absurd h (hnone w)
    · simpa using h
  · rintro ⟨v, hv, hlt, hp⟩
    unfold reach
    induction hp with
    | refl => exact marked_visit_of_mem hv (by simpa using hlt)
    | tail _ hstep ih =>
      refine marked_visit_of_succ ?_ ih hstep.1 (by simpa using hstep.2)
      intro a b ha
      exact absurd ha (hnone a)

theorem mem_marked {seen : Array Bool} {v : Nat} : v ∈ marked seen ↔ Marked seen v := by
  unfold marked
  rw [List.mem_filter, List.mem_range, marked_iff_getD]
  constructor
  · exact And.right
  · intro h
    exact ⟨lt_of_marked (marked_iff_getD.mpr h), h⟩

theorem mem_reachable {n : Nat} {succ : Nat → List Nat} {seeds : List Nat} {w : Nat} :
    w ∈ reachable n succ seeds ↔ ∃ v ∈ seeds, v < n ∧ Leads n succ v w := by
  unfold reachable
  rw [mem_marked, reach_iff]

theorem pairwise_reachable (n : Nat) (succ : Nat → List Nat) (seeds : List Nat) :
    (reachable n succ seeds).Pairwise (· < ·) :=
  List.pairwise_lt_range.filter _

/-- What is marked depends on the edges and the seeds as sets only. -/
theorem reach_congr {n : Nat} {succ succ' : Nat → List Nat} {seeds seeds' : List Nat}
    (hsucc : ∀ v w, w ∈ succ v ↔ w ∈ succ' v) (hseeds : ∀ v, v ∈ seeds ↔ v ∈ seeds') :
    reach n succ seeds = reach n succ' seeds' := by
  have hleads : Leads n succ = Leads n succ' := by
    unfold Leads
    simp only [hsucc]
  have hmarked : ∀ w, Marked (reach n succ seeds) w ↔ Marked (reach n succ' seeds') w := by
    intro w
    rw [reach_iff, reach_iff, hleads]
    simp only [hseeds]
  exact marks_ext (by simp) hmarked

theorem lt_of_leads {n : Nat} {succ : Nat → List Nat} {v w : Nat} (hv : v < n)
    (h : Leads n succ v w) : w < n := by
  cases h with
  | refl => exact hv
  | tail _ hstep => exact hstep.2

theorem lt_of_mem_reachable {n : Nat} {succ : Nat → List Nat} {seeds : List Nat} {w : Nat}
    (h : w ∈ reachable n succ seeds) : w < n := by
  obtain ⟨v, -, hv, hp⟩ := mem_reachable.mp h
  exact lt_of_leads hv hp

end GrammarTables.Graph
