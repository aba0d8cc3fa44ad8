import GrammarTables.CharClass
/-
# Sets of code points: membership

What each operation on sets says about membership.  Complements are taken within Unicode, so the
mark for the end of the input is never in one; a difference drops whatever lies beyond that mark.
Folding adds the case variants of the members.  Sets with the same members are equal (`ext`).
-/

namespace GrammarTables.CharSet

/-! ## 1. Sets given by ranges -/

@[simp] theorem mem_single {c d : Nat} : c ∈ single d ↔ c = d := by
  rw [mem_iff_exists]
  simp only [single, CodeRange.single, List.mem_singleton, exists_eq_left]
  omega

@[simp] theorem mem_range {c lo hi : Nat} : c ∈ range lo hi ↔ lo ≤ c ∧ c ≤ hi := by
  unfold range
  split
  · rename_i r hr
    obtain ⟨-, rfl, rfl⟩ := mem_ofRange?.mp hr
    rw [mem_iff_exists]
    simp
  · rename_i hnone
    have hlt : ¬ lo ≤ hi := by
      intro hle
      simp [CodeRange.of?, hle] at hnone
    constructor
    · intro h
      exact absurd h (not_mem_empty c)
    · intro h
      omega

/-! ## 2. Algebra -/

@[simp] theorem mem_inter {s t : CharSet} {c : Nat} : c ∈ s.inter t ↔ c ∈ s ∧ c ∈ t := by
  rw [mem_iff_exists, mem_iff_exists, mem_iff_exists]
  constructor
  · rintro ⟨r, hr, hc⟩
    obtain ⟨a, ha, hr⟩ := List.mem_flatMap.mp hr
    obtain ⟨b, hb, hab⟩ := List.mem_filterMap.mp hr
    obtain ⟨-, hlo, hhi⟩ := mem_ofRange?.mp hab
    exact ⟨⟨a, ha, by omega⟩, ⟨b, hb, by omega⟩⟩
  · rintro ⟨⟨a, ha, hca⟩, ⟨b, hb, hcb⟩⟩
    have hab : a.overlap? b = some ⟨max a.lo b.lo, min a.hi b.hi, by omega⟩ :=
      mem_ofRange?.mpr ⟨by omega, rfl, rfl⟩
    refine ⟨_, List.mem_flatMap.mpr ⟨a, ha, List.mem_filterMap.mpr ⟨b, hb, hab⟩⟩, ?_⟩
    simp only
    omega

/-- The gaps of ranges that begin at `next` or later. -/
theorem exists_mem_gapsFrom {c : Nat} : ∀ {rs : List CodeRange} (next : Nat),
    rs.Pairwise CodeRange.Before → (∀ r ∈ rs, next ≤ r.lo) →
    ((∃ g ∈ gapsFrom next rs, g.lo ≤ c ∧ c ≤ g.hi) ↔
      next ≤ c ∧ c ≤ maxCodePoint ∧ ∀ r ∈ rs, ¬ (r.lo ≤ c ∧ c ≤ r.hi))
  | [], next, _, _ => by
    simp only [gapsFrom, Option.mem_toList, mem_ofRange?, List.not_mem_nil, false_implies,
      implies_true, and_true]
    constructor
    · rintro ⟨g, ⟨-, hlo, hhi⟩, hc⟩
      omega
    · intro hc
      exact ⟨⟨next, maxCodePoint, by omega⟩, ⟨by omega, rfl, rfl⟩, hc⟩
  | r :: rest, next, hrs, hnext => by
    have hcons := List.pairwise_cons.mp hrs
    have hr := hnext r (by simp)
    have hle := r.lo_le_hi
    have hafter : ∀ s ∈ rest, r.hi + 1 < s.lo := fun s hs => hcons.1 s hs
    have ih := exists_mem_gapsFrom (c := c) (r.hi + 1) hcons.2
      fun s hs => by have := hafter s hs; omega
    unfold gapsFrom
    split
    · -- the range begins beyond Unicode, and so do the later ones
      rename_i hbeyond
      simp only [Option.mem_toList, mem_ofRange?]
      constructor
      · rintro ⟨g, ⟨-, hlo, hhi⟩, hc⟩
        refine ⟨by omega, by omega, fun s hs => ?_⟩
        rcases List.mem_cons.mp hs with rfl | hs
        · omega
        · have := hafter s hs
          omega
      · rintro ⟨hlo, hhi, -⟩
        exact ⟨⟨next, maxCodePoint, by omega⟩, ⟨by omega, rfl, rfl⟩, hlo, hhi⟩
    · have hbefore : c < r.lo → ∀ s ∈ rest, ¬ (s.lo ≤ c ∧ c ≤ s.hi) := by
        intro hlt s hs
        have := hafter s hs
        omega
      split
      · rename_i hgap
        constructor
        · rintro ⟨g, hg, hc⟩
          rcases List.mem_cons.mp hg with rfl | hg
          · simp only at hc
            refine ⟨by omega, by omega, fun s hs => ?_⟩
            rcases List.mem_cons.mp hs with rfl | hs
            · omega
            · exact hbefore (by omega) s hs
          · obtain ⟨hlo, hhi, hnot⟩ := ih.mp ⟨g, hg, hc⟩
            refine ⟨by omega, hhi, fun s hs => ?_⟩
            rcases List.mem_cons.mp hs with rfl | hs
            · omega
            · exact hnot s hs
        · rintro ⟨hlo, hhi, hnot⟩
          have hrc := hnot r (by simp)
          by_cases hlt : c < r.lo
          · exact ⟨_, List.mem_cons_self, by simp only; omega⟩
          · obtain ⟨g, hg, hc⟩ := ih.mpr
              ⟨by omega, hhi, fun s hs => hnot s (List.mem_cons_of_mem r hs)⟩
            exact ⟨g, List.mem_cons_of_mem _ hg, hc⟩
      · rename_i hgap
        rw [ih]
        constructor
        · rintro ⟨hlo, hhi, hnot⟩
          refine ⟨by omega, hhi, fun s hs => ?_⟩
          rcases List.mem_cons.mp hs with rfl | hs
          · omega
          · exact hnot s hs
        · rintro ⟨hlo, hhi, hnot⟩
          have hrc := hnot r (by simp)
          exact ⟨by omega, hhi, fun s hs => hnot s (List.mem_cons_of_mem r hs)⟩

@[simp] theorem mem_compl {s : CharSet} {c : Nat} : c ∈ s.compl ↔ c ≤ maxCodePoint ∧ ¬ c ∈ s := by
  have h := exists_mem_gapsFrom (c := c) 0 s.apart fun r _ => Nat.zero_le r.lo
  rw [mem_iff_exists, mem_iff_exists]
  simp only [compl, h, Nat.zero_le, true_and, not_exists, not_and]

@[simp] theorem mem_diff {s t : CharSet} {c : Nat} :
    c ∈ s.diff t ↔ c ∈ s ∧ ¬ c ∈ t ∧ c ≤ endMark := by
  unfold diff
  split
  · rename_i h
    simp only [Bool.and_eq_true, Bool.not_eq_true', ← mem_def] at h
    have ht : ¬ endMark ∈ t := by simp [mem_def, h.2]
    rw [mem_inter, mem_union, mem_compl, mem_single]
    constructor
    · rintro ⟨hs, ⟨hle, hnt⟩ | rfl⟩
      · exact ⟨hs, hnt, by simp only [maxCodePoint, endMark] at *; omega⟩
      · exact ⟨hs, ht, Nat.le_refl _⟩
    · rintro ⟨hs, hnt, hle⟩
      by_cases hc : c = endMark
      · exact ⟨hs, Or.inr hc⟩
      · exact ⟨hs, Or.inl ⟨by simp only [maxCodePoint, endMark] at *; omega, hnt⟩⟩
  · rename_i h
    rw [mem_inter, mem_compl]
    constructor
    · rintro ⟨hs, hle, hnt⟩
      exact ⟨hs, hnt, by simp only [maxCodePoint, endMark] at *; omega⟩
    · rintro ⟨hs, hnt, hle⟩
      refine ⟨hs, ?_, hnt⟩
      by_cases hc : c = endMark
      · subst hc
        have hnot : t.contains endMark = false := by simpa [mem_def] using hnt
        exact absurd (by rw [mem_def.mp hs, hnot]; rfl) h
      · simp only [maxCodePoint, endMark] at *
        omega

/-! ## 3. Case -/

theorem mem_caseVariants {c d : Nat} :
    c ∈ caseVariants d ↔ ∃ run ∈ caseTable, d ∈ run.points ∧ c ∈ run.images d := by
  simp [caseVariants, List.mem_flatMap, List.mem_filter, and_assoc]

@[simp] theorem mem_caseFold {s : CharSet} {c : Nat} :
    c ∈ s.caseFold ↔ c ∈ s ∨ ∃ d, d ∈ s ∧ c ∈ caseVariants d := by
  have himages : c ∈ s.caseImages ↔ ∃ d, d ∈ s ∧ c ∈ caseVariants d := by
    simp only [caseImages, List.mem_flatMap, List.mem_filter, mem_caseVariants, mem_def]
    constructor
    · rintro ⟨run, hrun, d, ⟨hd, hs⟩, hc⟩
      exact ⟨d, hs, run, hrun, hd, hc⟩
    · rintro ⟨d, hs, run, hrun, hd, hc⟩
      exact ⟨run, hrun, d, ⟨hd, hs⟩, hc⟩
  have hany : s.caseImages.any (fun v => (CodeRange.single v).contains c) = true ↔
      c ∈ s.caseImages := by
    simp only [List.any_eq_true, CodeRange.contains_iff, CodeRange.single]
    constructor
    · rintro ⟨v, hv, hle, hge⟩
      have : v = c := by omega
      exact this ▸ hv
    · intro hc
      exact ⟨c, hc, Nat.le_refl c, Nat.le_refl c⟩
  rw [mem_def, contains_caseFold, Bool.or_eq_true, hany, himages, ← mem_def, or_comm]

/-- The table stays within Unicode, and so do the variants that it gives. -/
theorem caseTable_bounded : caseTable.all (fun run => decide (run.first ≤ run.last) &&
    decide (run.last ≤ maxCodePoint) &&
    run.deltas.all fun d => decide ((run.last : Int) + d ≤ maxCodePoint)) = true := by
  decide +kernel

theorem le_last_of_mem_points {run : CaseRun} (h : run.first ≤ run.last) {d : Nat}
    (hd : d ∈ run.points) : d ≤ run.last := by
  obtain ⟨k, hk, rfl⟩ := List.mem_map.mp hd
  have hk' : k ≤ (run.last - run.first) / run.step := by
    have := List.mem_range.mp hk
    omega
  have hmul : run.step * k ≤ run.last - run.first :=
    Nat.le_trans (Nat.mul_le_mul_left run.step hk') (Nat.mul_div_le _ _)
  omega

/-- No code point beyond Unicode has a case variant, and no variant lies there. -/
theorem le_of_mem_caseVariants {c d : Nat} (h : c ∈ caseVariants d) :
    c ≤ maxCodePoint ∧ d ≤ maxCodePoint := by
  obtain ⟨run, hrun, hd, hc⟩ := mem_caseVariants.mp h
  have hbound := List.all_eq_true.mp caseTable_bounded run hrun
  simp only [Bool.and_eq_true, decide_eq_true_eq, List.all_eq_true] at hbound
  obtain ⟨⟨hfirst, hlast⟩, hdeltas⟩ := hbound
  have hle := le_last_of_mem_points hfirst hd
  obtain ⟨delta, hdelta, rfl⟩ := List.mem_map.mp hc
  have hdelta := hdeltas delta hdelta
  omega

/-! ## 4. One list for each set -/

/-- The first range of a list begins no later than any code point of the list. -/
theorem lo_le_of_covers {r s : CodeRange} {rs ss : List CodeRange}
    (hss : (s :: ss).Pairwise CodeRange.Before)
    (hsub : ∀ c, (∃ t ∈ r :: rs, t.lo ≤ c ∧ c ≤ t.hi) → ∃ t ∈ s :: ss, t.lo ≤ c ∧ c ≤ t.hi) :
    s.lo ≤ r.lo := by
  obtain ⟨t, ht, hlo, -⟩ := hsub r.lo ⟨r, List.mem_cons_self, Nat.le_refl _, r.lo_le_hi⟩
  rcases List.mem_cons.mp ht with rfl | ht
  · exact hlo
  · have hbefore := (List.pairwise_cons.mp hss).1 t ht
    have := s.lo_le_hi
    simp only [CodeRange.Before] at hbefore
    omega

/-- Two first ranges that begin together: the gap after one of them is no part of the other. -/
theorem hi_le_of_covers {r s : CodeRange} {rs ss : List CodeRange}
    (hss : (s :: ss).Pairwise CodeRange.Before) (hlo : r.lo = s.lo)
    (hsub : ∀ c, (∃ t ∈ r :: rs, t.lo ≤ c ∧ c ≤ t.hi) → ∃ t ∈ s :: ss, t.lo ≤ c ∧ c ≤ t.hi) :
    r.hi ≤ s.hi := by
  refine Nat.le_of_not_lt fun hlt => ?_
  have hle := s.lo_le_hi
  obtain ⟨t, ht, htlo, hthi⟩ := hsub (s.hi + 1) ⟨r, List.mem_cons_self, by omega, by omega⟩
  rcases List.mem_cons.mp ht with rfl | ht
  · omega
  · have hbefore := (List.pairwise_cons.mp hss).1 t ht
    simp only [CodeRange.Before] at hbefore
    omega

theorem ranges_ext : ∀ {rs ss : List CodeRange}, rs.Pairwise CodeRange.Before →
    ss.Pairwise CodeRange.Before →
    (∀ c, (∃ r ∈ rs, r.lo ≤ c ∧ c ≤ r.hi) ↔ ∃ s ∈ ss, s.lo ≤ c ∧ c ≤ s.hi) → rs = ss
  | [], [], _, _, _ => rfl
  | [], s :: ss, _, _, h => by
    obtain ⟨r, hr, -⟩ := (h s.lo).mpr ⟨s, List.mem_cons_self, Nat.le_refl _, s.lo_le_hi⟩
    cases hr
  | r :: rs, [], _, _, h => by
    obtain ⟨s, hs, -⟩ := (h r.lo).mp ⟨r, List.mem_cons_self, Nat.le_refl _, r.lo_le_hi⟩
    cases hs
  | r :: rs, s :: ss, hrs, hss, h => by
    have hlo : r.lo = s.lo :=
      Nat.le_antisymm (lo_le_of_covers hrs fun c => (h c).mpr)
        (lo_le_of_covers hss fun c => (h c).mp)
    have hhi : r.hi = s.hi :=
      Nat.le_antisymm (hi_le_of_covers hss hlo fun c => (h c).mp)
        (hi_le_of_covers hrs hlo.symm fun c => (h c).mpr)
    have heq : r = s := by
      cases r
      cases s
      simp_all
    subst heq
    have hafter : ∀ {ts : List CodeRange} {c : Nat}, (r :: ts).Pairwise CodeRange.Before →
        ((∃ t ∈ ts, t.lo ≤ c ∧ c ≤ t.hi) ↔
          r.hi < c ∧ ∃ t ∈ r :: ts, t.lo ≤ c ∧ c ≤ t.hi) := by
      intro ts c hts
      constructor
      · rintro ⟨t, ht, hc⟩
        have hbefore := (List.pairwise_cons.mp hts).1 t ht
        simp only [CodeRange.Before] at hbefore
        exact ⟨by omega, t, List.mem_cons_of_mem r ht, hc⟩
      · rintro ⟨hlt, t, ht, hc⟩
        rcases List.mem_cons.mp ht with rfl | ht
        · omega
        · exact ⟨t, ht, hc⟩
    have htail := ranges_ext (List.pairwise_cons.mp hrs).2 (List.pairwise_cons.mp hss).2
      fun c => by rw [hafter hrs, hafter hss, h c]
    rw [htail]

/-- **A set is known by its members.** -/
theorem ext {s t : CharSet} (h : ∀ c, c ∈ s ↔ c ∈ t) : s = t := by
  have hranges : s.ranges = t.ranges := ranges_ext s.apart t.apart fun c => by
    rw [← mem_iff_exists, ← mem_iff_exists, h c]
  cases s
  cases t
  simp_all

end GrammarTables.CharSet

namespace GrammarTables

/-- The end of the input comes after all characters. -/
theorem toNat_lt_endMark (c : Char) : c.toNat < endMark := by
  have h := c.valid
  simp only [Char.toNat, endMark, UInt32.isValidChar, Nat.isValidChar] at *
  omega

end GrammarTables
