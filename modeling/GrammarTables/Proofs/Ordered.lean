import Mathlib.Data.List.Sort
import Mathlib.Data.String.Basic
import GrammarTables.Ascending
/-
# Ordered lists without repetitions: what sorting does

`sortBy` keeps the members of a list and puts them into the order of `before`, provided that
`before` is a strict order in which different elements are comparable (`Ranks`).  Two lists in
that order with the same members are equal (`Ranks.ext`), so a set has one list.
-/

namespace GrammarTables

/-! ## 1. Strict orders given by a test -/

/-- `before` orders its type strictly, and any two different elements. -/
structure Ranks {α : Type} (before : α → α → Bool) : Prop where
  irrefl : ∀ a, before a a = false
  trans : ∀ {a b c}, before a b = true → before b c = true → before a c = true
  total : ∀ {a b}, before a b = false → before b a = false → a = b

/-- The order of the places that a function gives to elements, different ones to different
elements. -/
theorem ranks_of_injective {α β : Type} [LinearOrder β] {f : α → β} (hf : Function.Injective f) :
    Ranks fun a b => decide (f a < f b) where
  irrefl a := by simp
  trans h₁ h₂ := by
    simp only [decide_eq_true_eq] at *
    exact lt_trans h₁ h₂
  total h₁ h₂ := by
    simp only [decide_eq_false_iff_not, not_lt] at *
    exact hf (le_antisymm h₂ h₁)

/-- The order of numbers. -/
theorem ranks_lt : Ranks (fun m n : Nat => decide (m < n)) :=
  ranks_of_injective Function.injective_id

/-- The order of texts. -/
theorem ranks_text : Ranks (fun a b : String => decide (a < b)) :=
  ranks_of_injective Function.injective_id

/-- The order of numbers by a rank, and by the numbers themselves where ranks are equal. -/
def rankedBefore {κ : Type} [LinearOrder κ] (rank : Nat → κ) (m n : Nat) : Bool :=
  rank m < rank n || (rank m = rank n && m < n)

section Ranked

variable {κ : Type} [LinearOrder κ] {rank : Nat → κ}

theorem rankedBefore_iff {m n : Nat} :
    rankedBefore rank m n = true ↔ rank m < rank n ∨ rank m = rank n ∧ m < n := by
  simp [rankedBefore]

theorem ranks_rankedBefore (rank : Nat → κ) : Ranks (rankedBefore rank) where
  irrefl n := by simp [rankedBefore]
  trans h h' := by
    rw [rankedBefore_iff] at *
    grind
  total {m n} h h' := by
    rw [← Bool.not_eq_true, rankedBefore_iff] at h h'
    grind

end Ranked

theorem mem_of_mem_insertBy {α : Type} {before : α → α → Bool} {a b : α} {l : List α}
    (h : b ∈ insertBy before a l) : b = a ∨ b ∈ l := by
  induction l with
  | nil => simpa [insertBy] using h
  | cons c rest ih =>
    unfold insertBy at h
    split at h
    · simpa using h
    · split at h
      · rcases List.mem_cons.mp h with rfl | h
        · simp
        · exact (ih h).imp_right (List.mem_cons_of_mem c)
      · exact Or.inr h

/-- Sorting adds nothing, whatever the test. -/
theorem mem_of_mem_sortBy {α : Type} {before : α → α → Bool} {a : α} {l : List α}
    (h : a ∈ sortBy before l) : a ∈ l := by
  induction l with
  | nil => simp [sortBy] at h
  | cons b rest ih =>
    rcases mem_of_mem_insertBy h with rfl | h
    · simp
    · exact List.mem_cons_of_mem b (ih h)

theorem map_insertBy {α β : Type} {before : β → β → Bool} (f : α → β) (a : α) (l : List α) :
    (insertBy (fun a b => before (f a) (f b)) a l).map f = insertBy before (f a) (l.map f) := by
  induction l with
  | nil => rfl
  | cons b rest ih =>
    simp only [insertBy, List.map_cons]
    split
    · rfl
    · split
      · rw [List.map_cons, ih]
      · rfl

/-- Sorting by keys sorts the keys. -/
theorem map_sortBy {α β : Type} {before : β → β → Bool} (f : α → β) (l : List α) :
    (sortBy (fun a b => before (f a) (f b)) l).map f = sortBy before (l.map f) := by
  induction l with
  | nil => rfl
  | cons a rest ih =>
    have hcons : sortBy (fun a b => before (f a) (f b)) (a :: rest)
        = insertBy (fun a b => before (f a) (f b)) a
          (sortBy (fun a b => before (f a) (f b)) rest) := rfl
    rw [hcons, map_insertBy, ih]
    rfl

namespace Ranks

variable {α : Type} {before : α → α → Bool}

/-! ## 2. One insertion -/

theorem mem_insertBy (h : Ranks before) {a b : α} {l : List α} :
    b ∈ insertBy before a l ↔ b = a ∨ b ∈ l := by
  induction l with
  | nil => simp [insertBy]
  | cons c rest ih =>
    unfold insertBy
    split
    · simp
    · split
      · simp only [List.mem_cons, ih]
        grind
      · rename_i h₁ h₂
        have hac : a = c := h.total (by simpa using h₁) (by simpa using h₂)
        simp [hac]

theorem pairwise_insertBy (h : Ranks before) (a : α) {l : List α}
    (hl : l.Pairwise (before · · = true)) :
    (insertBy before a l).Pairwise (before · · = true) := by
  induction l with
  | nil => simp [insertBy]
  | cons c rest ih =>
    have hc := List.pairwise_cons.mp hl
    unfold insertBy
    split
    · rename_i hac
      refine List.pairwise_cons.mpr ⟨fun b hb => ?_, hl⟩
      rcases List.mem_cons.mp hb with rfl | hb
      · exact hac
      · exact h.trans hac (hc.1 b hb)
    · split
      · rename_i hca
        refine List.pairwise_cons.mpr ⟨fun b hb => ?_, ih hc.2⟩
        rcases h.mem_insertBy.mp hb with rfl | hb
        · exact hca
        · exact hc.1 b hb
      · exact hl

/-! ## 3. Sorting -/

theorem mem_sortBy (h : Ranks before) {a : α} {l : List α} : a ∈ sortBy before l ↔ a ∈ l := by
  induction l with
  | nil => simp [sortBy]
  | cons b rest ih =>
    have hcons : sortBy before (b :: rest) = insertBy before b (sortBy before rest) := rfl
    rw [hcons, h.mem_insertBy, ih, List.mem_cons]

theorem pairwise_sortBy (h : Ranks before) (l : List α) :
    (sortBy before l).Pairwise (before · · = true) := by
  induction l with
  | nil => simp [sortBy]
  | cons b rest ih => exact h.pairwise_insertBy b ih

theorem nodup_sortBy (h : Ranks before) (l : List α) : (sortBy before l).Nodup :=
  (h.pairwise_sortBy l).imp fun {a b} hab heq => by
    rw [heq, h.irrefl b] at hab
    cases hab

/-- **A set has one ordered list.** -/
theorem ext (h : Ranks before) {l₁ l₂ : List α} (h₁ : l₁.Pairwise (before · · = true))
    (h₂ : l₂.Pairwise (before · · = true)) (hmem : ∀ a, a ∈ l₁ ↔ a ∈ l₂) : l₁ = l₂ := by
  have hirr : Std.Irrefl fun a b => before a b = true :=
    ⟨fun a => by simp [h.irrefl a]⟩
  have hasymm : Std.Asymm fun a b => before a b = true :=
    ⟨fun a b hab hba => by
      have haa := h.trans hab hba
      rw [h.irrefl a] at haa
      exact Bool.false_ne_true haa⟩
  exact h₁.eq_of_mem_iff h₂ (fun {a} => hmem a)

end Ranks

/-! ## 4. Ascending numbers -/

theorem pairwise_ascending (ns : List Nat) : (ascending ns).Pairwise (· < ·) :=
  (ranks_lt.pairwise_sortBy ns).imp fun h => by simpa using h

/-- Two strictly ascending lists with the same members are equal. -/
theorem ascending_ext {ms ns : List Nat} (hm : ms.Pairwise (· < ·)) (hn : ns.Pairwise (· < ·))
    (hmem : ∀ a, a ∈ ms ↔ a ∈ ns) : ms = ns :=
  ranks_lt.ext (hm.imp fun h => by simpa using h) (hn.imp fun h => by simpa using h) hmem

theorem pairwise_range_filter (n : Nat) (p : Nat → Bool) :
    ((List.range n).filter p).Pairwise (· < ·) :=
  List.pairwise_lt_range.filter p

end GrammarTables
