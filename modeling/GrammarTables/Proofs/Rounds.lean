import Mathlib.Data.Finset.Card
import Mathlib.Data.Nat.Find
import Mathlib.Logic.Function.Iterate
import GrammarTables.Proofs.Reachability
/-
# Rounds that come to rest

A loop that goes on while a round changes something ends if rounds only add to a finite set of
facts and every change adds one (`exists_rest`).  For rounds of marking the facts are the marks
(`exists_rest_marks`).
-/

namespace GrammarTables

/-! ## 1. Rounds in general -/

section Rounds

variable {α : Type} {round : α → α} {a b : α}

/-- **The loop ends with a value**: after some rounds, each of which changes something, a round
leaves the value as it is. -/
def RestsAt (round : α → α) (a b : α) : Prop :=
  ∃ k, (∀ j < k, round (round^[j] a) ≠ round^[j] a) ∧ round^[k] a = b ∧ round b = b

/-- Rounds after the last one that changes something are idle. -/
theorem iterate_eq_of_rest {k n : Nat} (hrest : round (round^[k] a) = round^[k] a) (h : k ≤ n) :
    round^[n] a = round^[k] a := by
  obtain ⟨m, rfl⟩ := Nat.exists_eq_add_of_le' h
  rw [Function.iterate_add_apply]
  exact Function.iterate_fixed hrest m

theorem restsAt_of_rest {k : Nat} (hrest : round (round^[k] a) = round^[k] a) :
    RestsAt round a (round^[k] a) := by
  classical
  have hex : ∃ j, round (round^[j] a) = round^[j] a := ⟨k, hrest⟩
  have hlast := Nat.find_spec hex
  refine ⟨Nat.find hex, fun j hj => Nat.find_min hex hj, ?_, hrest⟩
  exact (iterate_eq_of_rest hlast (Nat.find_min' hex hrest)).symm

theorem RestsAt.rest (h : RestsAt round a b) : round b = b := by
  obtain ⟨k, -, -, hrest⟩ := h
  exact hrest

/-- What rounds preserve holds at rest. -/
theorem RestsAt.preserves (h : RestsAt round a b) {P : α → Prop} (hP : ∀ a, P a → P (round a))
    (ha : P a) : P b := by
  obtain ⟨k, -, rfl, -⟩ := h
  exact Function.Iterate.rec P ha hP k

/-- Rounds that only add facts, and change nothing if they add none, come to rest after at most as
many rounds as there are facts. -/
theorem exists_rest {β : Type} (facts : α → Finset β) (bound : Finset β) {P : α → Prop}
    (hP : ∀ a, P a → P (round a)) (hbound : ∀ a, P a → facts a ⊆ bound)
    (hgrow : ∀ a, P a → facts a ⊆ facts (round a))
    (hsame : ∀ a, P a → facts (round a) = facts a → round a = a) (ha : P a) :
    ∃ k ≤ bound.card, round (round^[k] a) = round^[k] a := by
  have hpreserved : ∀ k, P (round^[k] a) := fun k => Function.Iterate.rec P ha hP k
  have hrounds : ∀ k, (∃ j < k, round (round^[j] a) = round^[j] a) ∨
      k ≤ (facts (round^[k] a)).card := by
    intro k
    induction k with
    | zero => exact Or.inr (Nat.zero_le _)
    | succ k ih =>
      rcases ih with ⟨j, hj, hrest⟩ | hcard
      · exact Or.inl ⟨j, Nat.lt_succ_of_lt hj, hrest⟩
      by_cases hrest : round (round^[k] a) = round^[k] a
      · exact Or.inl ⟨k, Nat.lt_succ_self k, hrest⟩
      · have hne : facts (round^[k] a) ≠ facts (round (round^[k] a)) := fun h =>
          hrest (hsame _ (hpreserved k) h.symm)
        rw [Function.iterate_succ_apply']
        have hlt := Finset.card_lt_card ((hgrow _ (hpreserved k)).ssubset_of_ne hne)
        exact Or.inr (Nat.lt_of_le_of_lt hcard hlt)
  rcases hrounds (bound.card + 1) with ⟨j, hj, hrest⟩ | hcard
  · exact ⟨j, Nat.lt_succ_iff.mp hj, hrest⟩
  · have hle := Finset.card_le_card (hbound _ (hpreserved (bound.card + 1)))
    omega

end Rounds

/-! ## 2. Rounds of marking -/

open GrammarTables.Graph (Marked)

/-- The numbers that are marked. -/
def marksOf (marks : Array Bool) : Finset Nat :=
  (Finset.range marks.size).filter fun x => marks.getD x false = true

theorem mem_marksOf {marks : Array Bool} {x : Nat} : x ∈ marksOf marks ↔ Marked marks x := by
  rw [marksOf, Finset.mem_filter, Finset.mem_range, Graph.marked_iff_getD, and_iff_right_iff_imp]
  exact fun h => Graph.lt_of_marked (Graph.marked_iff_getD.mpr h)

/-- **Rounds that only add marks come to rest**, after at most as many rounds as there are
numbers. -/
theorem exists_rest_marks (round : Array Bool → Array Bool)
    (hsize : ∀ marks, (round marks).size = marks.size)
    (hmarked : ∀ marks x, Marked marks x → Marked (round marks) x) (marks : Array Bool) :
    ∃ k ≤ marks.size, round (round^[k] marks) = round^[k] marks := by
  have hrest := exists_rest marksOf (Finset.range marks.size)
    (P := fun m => m.size = marks.size) (fun m h => (hsize m).trans h)
    (fun m h => h ▸ Finset.filter_subset _ _)
    (fun m _ x hx => mem_marksOf.mpr (hmarked m x (mem_marksOf.mp hx)))
    (fun m _ h => Graph.marks_ext (hsize m) fun x => by rw [← mem_marksOf, h, mem_marksOf])
    (rfl : marks.size = marks.size)
  rwa [Finset.card_range] at hrest

/-! ## 3. Marking by conditions -/

section Marking

variable {ι : Type} {target : ι → Nat} {cond : Array Bool → ι → Bool} {marks : Array Bool} {i : ι}
  {x : Nat}

/-- Marks the target of an element if a condition on the marks holds. -/
def markIf (target : ι → Nat) (cond : Array Bool → ι → Bool) (marks : Array Bool) (i : ι) :
    Array Bool :=
  if cond marks i then marks.setIfInBounds (target i) true else marks

/-- One round of marking over some elements. -/
def markRound (target : ι → Nat) (cond : Array Bool → ι → Bool) (is : List ι)
    (marks : Array Bool) : Array Bool := is.foldl (markIf target cond) marks

theorem size_markIf : (markIf target cond marks i).size = marks.size := by
  unfold markIf
  split <;> simp

theorem marked_markIf : Marked (markIf target cond marks i) x ↔
    Marked marks x ∨ x = target i ∧ x < marks.size ∧ cond marks i = true := by
  unfold markIf
  split
  · rename_i h
    rw [Graph.marked_setIfInBounds]
    refine or_congr_right ⟨?_, ?_⟩
    · rintro ⟨rfl, hlt⟩
      exact ⟨rfl, hlt, h⟩
    · rintro ⟨rfl, hlt, -⟩
      exact ⟨rfl, hlt⟩
  · rename_i h
    refine ⟨Or.inl, ?_⟩
    rintro (h' | ⟨-, -, h'⟩)
    · exact h'
    · exact absurd h' h

theorem size_markRound (is : List ι) : (markRound target cond is marks).size = marks.size := by
  induction is generalizing marks with
  | nil => rfl
  | cons i is ih => exact ih.trans size_markIf

theorem marked_markRound (is : List ι) (h : Marked marks x) :
    Marked (markRound target cond is marks) x := by
  induction is generalizing marks with
  | nil => exact h
  | cons i is ih => exact ih (marked_markIf.mpr (Or.inl h))

/-- What is only marked where something holds is only marked there after a round. -/
theorem forall_marked_markRound {P : Nat → Prop} {is : List ι}
    (hcond : ∀ i ∈ is, ∀ marks : Array Bool, (∀ x, Marked marks x → P x) → cond marks i = true →
      P (target i)) (h : ∀ x, Marked marks x → P x) :
    ∀ x, Marked (markRound target cond is marks) x → P x := by
  induction is generalizing marks with
  | nil => exact h
  | cons i is ih =>
    refine ih (fun j hj => hcond j (List.mem_cons_of_mem i hj)) fun x hx => ?_
    rcases marked_markIf.mp hx with hx | ⟨rfl, -, hi⟩
    · exact h x hx
    · exact hcond i (by simp) marks h hi

theorem marked_markRound_of_mem {is : List ι} (hi : i ∈ is)
    (hmono : ∀ {marks marks' : Array Bool} {i : ι}, (∀ x, Marked marks x → Marked marks' x) →
      cond marks i = true → cond marks' i = true)
    (hcond : cond marks i = true) (hlt : target i < marks.size) :
    Marked (markRound target cond is marks) (target i) := by
  induction is generalizing marks with
  | nil => simp at hi
  | cons j is ih =>
    rcases List.mem_cons.mp hi with rfl | hi
    · exact marked_markRound is (marked_markIf.mpr (Or.inr ⟨rfl, hlt, hcond⟩))
    · refine ih hi (hmono (fun x hx => marked_markIf.mpr (Or.inl hx)) hcond) ?_
      rwa [size_markIf]

/-- **At rest the target is marked where the condition holds.** -/
theorem closed_of_markRound_eq {is : List ι}
    (hmono : ∀ {marks marks' : Array Bool} {i : ι}, (∀ x, Marked marks x → Marked marks' x) →
      cond marks i = true → cond marks' i = true)
    (hrest : markRound target cond is marks = marks) (hi : i ∈ is) (hcond : cond marks i = true)
    (hlt : target i < marks.size) : Marked marks (target i) := by
  rw [← hrest]
  exact marked_markRound_of_mem hi hmono hcond hlt

end Marking

end GrammarTables
