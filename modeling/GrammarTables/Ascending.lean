/-
# Ordered lists without repetitions

Small finite sets of numbers are kept as lists in a fixed order, so that equal sets are equal
lists and answers come in that order.
-/

namespace GrammarTables

/-- Adds an element to a list ordered by `before`; an element that is neither before nor after
one of the list is taken to be there already. -/
def insertBy {α : Type} (before : α → α → Bool) (a : α) : List α → List α
  | [] => [a]
  | b :: rest =>
    if before a b then a :: b :: rest
    else if before b a then b :: insertBy before a rest
    else b :: rest

/-- The elements of a list in order, without repetitions. -/
def sortBy {α : Type} (before : α → α → Bool) (xs : List α) : List α :=
  xs.foldr (insertBy before) []

/-- The numbers of a list, ascending and without repetitions. -/
def ascending (ns : List Nat) : List Nat := sortBy (fun m n => decide (m < n)) ns

theorem mem_insertAscending {m n : Nat} {ns : List Nat} :
    m ∈ insertBy (fun m n => decide (m < n)) n ns ↔ m = n ∨ m ∈ ns := by
  induction ns with
  | nil => simp [insertBy]
  | cons k rest ih =>
    unfold insertBy
    split
    · simp
    · split
      · simp only [List.mem_cons, ih]
        grind
      · rename_i h₁ h₂
        have hk : k = n := by
          simp only [decide_eq_true_eq] at h₁ h₂
          omega
        simp [hk]

theorem mem_ascending {m : Nat} {ns : List Nat} : m ∈ ascending ns ↔ m ∈ ns := by
  induction ns with
  | nil => simp [ascending, sortBy]
  | cons n rest ih =>
    have : ascending (n :: rest) = insertBy (fun m n => decide (m < n)) n (ascending rest) := rfl
    rw [this, mem_insertAscending, ih, List.mem_cons]

end GrammarTables
