import Mathlib.Data.Set.Card
import Mathlib.Order.Interval.Finset.Nat
import GrammarTables.Proofs.CharSet
/-
# Sets of code points: a Boolean algebra with one form for each set

Whatever is made of numbers of 32 bits by the operations on sets (`Term`) has the members that the
operations say, read as operations on truth values (`Term.Has`, `Term.mem_eval`).  Its ranges ascend
and leave gaps, so that sets with the same members are the same list of ranges
(`Term.eval_eq_iff`), and the size of a set is the number of its members (`Term.size_eval`).
-/

namespace GrammarTables.CharSet

/-! ## 1. Terms -/

/-- An expression over the operations on sets. -/
inductive Term
  | empty
  | single (c : UInt32)
  | range (lo hi : UInt32)
  | ofPairs (ps : List (UInt32 × UInt32))
  | union (s t : Term)
  | inter (s t : Term)
  | compl (s : Term)
  | diff (s t : Term)
  | caseFold (s : Term)

namespace Term

/-- The set that a term makes. -/
def eval : Term → CharSet
  | empty => .empty
  | single c => .single c.toNat
  | range lo hi => .range lo.toNat hi.toNat
  | ofPairs ps => .ofPairs (ps.map fun p => (p.1.toNat, p.2.toNat))
  | union s t => s.eval.union t.eval
  | inter s t => s.eval.inter t.eval
  | compl s => s.eval.compl
  | diff s t => s.eval.diff t.eval
  | caseFold s => s.eval.caseFold

/-- **The members of a term**, point by point.  Complements stay within Unicode, and a difference
has nothing beyond the mark for the end of the input. -/
def Has : Term → Nat → Prop
  | empty, _ => False
  | single d, c => c = d.toNat
  | range lo hi, c => lo.toNat ≤ c ∧ c ≤ hi.toNat
  | ofPairs ps, c => ∃ p ∈ ps, p.1.toNat ≤ c ∧ c ≤ p.2.toNat
  | union s t, c => s.Has c ∨ t.Has c
  | inter s t, c => s.Has c ∧ t.Has c
  | compl s, c => c ≤ maxCodePoint ∧ ¬ s.Has c
  | diff s t, c => s.Has c ∧ ¬ t.Has c ∧ c ≤ endMark
  | caseFold s, c => s.Has c ∨ ∃ d, s.Has d ∧ c ∈ caseVariants d

theorem mem_eval (e : Term) : ∀ {c : Nat}, c ∈ e.eval ↔ e.Has c := by
  induction e with
  | empty => intro c; simp [eval, Has]
  | single d => intro c; simp [eval, Has]
  | range lo hi => intro c; simp [eval, Has]
  | ofPairs ps => intro c; simp [eval, Has, mem_ofPairs]
  | union s t ihs iht => intro c; rw [eval, Has, mem_union, ihs, iht]
  | inter s t ihs iht => intro c; rw [eval, Has, mem_inter, ihs, iht]
  | compl s ih => intro c; rw [eval, Has, mem_compl, ih]
  | diff s t ihs iht => intro c; rw [eval, Has, mem_diff, ihs, iht]
  | caseFold s ih => intro c; simp only [eval, Has, mem_caseFold, ih]

/-- No operation leads out of the numbers of 32 bits. -/
theorem Has.lt_size {e : Term} : ∀ {c : Nat}, e.Has c → c < UInt32.size := by
  have hunicode : ∀ {c : Nat}, c ≤ maxCodePoint → c < UInt32.size := by
    intro c hc
    simp only [maxCodePoint, UInt32.size] at *
    omega
  induction e with
  | empty => exact fun h => h.elim
  | single d => exact fun h => Nat.lt_of_le_of_lt (Nat.le_of_eq h) d.toNat_lt_size
  | range lo hi => exact fun h => Nat.lt_of_le_of_lt h.2 hi.toNat_lt_size
  | ofPairs ps =>
    rintro c ⟨p, -, -, hle⟩
    exact Nat.lt_of_le_of_lt hle p.2.toNat_lt_size
  | union s t ihs iht => exact fun h => h.elim ihs iht
  | inter s t ihs iht => exact fun h => ihs h.1
  | compl s ih => exact fun h => hunicode h.1
  | diff s t ihs iht => exact fun h => ihs h.1
  | caseFold s ih =>
    rintro c (h | ⟨d, -, hc⟩)
    · exact ih h
    · exact hunicode (le_of_mem_caseVariants hc).1

theorem lt_size_of_mem {e : Term} {c : Nat} (h : c ∈ e.eval) : c < UInt32.size :=
  (e.mem_eval.mp h).lt_size

end Term

/-! ## 2. Sizes -/

theorem size_eq_sum (s : CharSet) : s.size = (s.ranges.map CodeRange.size).sum := by
  have hfold : ∀ (rs : List CodeRange) (n : Nat),
      rs.foldl (fun n r => n + r.size) n = n + (rs.map CodeRange.size).sum := by
    intro rs
    induction rs with
    | nil => exact fun n => rfl
    | cons r rest ih =>
      intro n
      rw [List.foldl_cons, ih, List.map_cons, List.sum_cons, Nat.add_assoc]
  exact (hfold s.ranges 0).trans (Nat.zero_add _)

/-- The code points that lie in one of some ranges. -/
def covered (rs : List CodeRange) : Set Nat := {c | ∃ r ∈ rs, r.lo ≤ c ∧ c ≤ r.hi}

theorem covered_cons (r : CodeRange) (rest : List CodeRange) :
    covered (r :: rest) = Set.Icc r.lo r.hi ∪ covered rest := by
  ext c
  simp [covered]

/-- Ranges that do not meet cover as many code points as they have together. -/
theorem finite_covered_and_ncard {rs : List CodeRange} (h : rs.Pairwise CodeRange.Before) :
    (covered rs).Finite ∧ (covered rs).ncard = (rs.map CodeRange.size).sum := by
  induction rs with
  | nil => simp [covered]
  | cons r rest ih =>
    obtain ⟨hafter, hrest⟩ := List.pairwise_cons.mp h
    obtain ⟨hfinite, hcard⟩ := ih hrest
    have hapart : Disjoint (Set.Icc r.lo r.hi) (covered rest) := by
      refine Set.disjoint_left.mpr ?_
      rintro c ⟨-, hhi⟩ ⟨s, hs, hlo, -⟩
      have hbefore := hafter s hs
      simp only [CodeRange.Before] at hbefore
      omega
    have hfirst : (Set.Icc r.lo r.hi).ncard = r.size := by
      have := r.lo_le_hi
      rw [← Finset.coe_Icc, Set.ncard_coe_finset, Nat.card_Icc, CodeRange.size]
      omega
    rw [covered_cons]
    refine ⟨(Set.finite_Icc r.lo r.hi).union hfinite, ?_⟩
    rw [Set.ncard_union_eq hapart (Set.finite_Icc r.lo r.hi) hfinite, hfirst, hcard, List.map_cons,
      List.sum_cons]

/-! ## 3. One form for each set -/

namespace Term

/-- Terms with the same members among the numbers of 32 bits make the same set. -/
theorem eval_eq_iff {e f : Term} :
    e.eval = f.eval ↔ ∀ c : UInt32, e.eval.contains c.toNat = f.eval.contains c.toNat := by
  refine ⟨fun h c => by rw [h], fun h => CharSet.ext fun c => ?_⟩
  by_cases hc : c < UInt32.size
  · have hword := h (UInt32.ofNat c)
    rw [UInt32.toNat_ofNat_of_lt' hc] at hword
    rw [mem_def, mem_def, hword]
  · exact ⟨fun hmem => absurd (lt_size_of_mem hmem) hc, fun hmem => absurd (lt_size_of_mem hmem) hc⟩

/-- The size is the number of members. -/
theorem size_eval (e : Term) :
    e.eval.size = {c : UInt32 | e.eval.contains c.toNat = true}.ncard := by
  have himage : covered e.eval.ranges =
      UInt32.toNat '' {c : UInt32 | e.eval.contains c.toNat = true} := by
    ext c
    simp only [covered, Set.mem_ofPred_eq, Set.mem_image, ← mem_def]
    rw [← mem_iff_exists]
    constructor
    · intro hc
      have hword : (UInt32.ofNat c).toNat = c := UInt32.toNat_ofNat_of_lt' (lt_size_of_mem hc)
      exact ⟨UInt32.ofNat c, hword.symm ▸ hc, hword⟩
    · rintro ⟨d, hd, rfl⟩
      exact hd
  rw [size_eq_sum, ← (finite_covered_and_ncard e.eval.apart).2, himage]
  exact Set.ncard_image_of_injective _ fun _ _ h => UInt32.toNat_inj.mp h

end Term

end GrammarTables.CharSet
