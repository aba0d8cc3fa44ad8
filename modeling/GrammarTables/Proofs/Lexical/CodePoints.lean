import GrammarTables.Proofs.FirstOccurrence
import GrammarTables.Proofs.Lexical.Encoding
/-
# Classes in the order of code points

Classes are numbered by their first code point, the end of the input first.  So whatever is listed
class by class first occurs in the same order as if it was listed code point by code point
(`Alphabet.eraseDups_filterMap_range`), however many classes the code points are cut into.

Ranges of classes are joined where they touch, so they are the same as if every code point was a
range of its own (`classRanges_of`).
-/

namespace GrammarTables.Lexical

/-! ## 1. Classes by their first code point -/

/-- All code points, the end of the input first. -/
def codePoints : List Nat := endMark :: List.range endMark

theorem mem_codePoints {c : Nat} : c ∈ codePoints ↔ c ≤ endMark := by
  rw [codePoints, List.mem_cons, List.mem_range]
  omega

theorem eraseDups_replicate_succ (n k : Nat) : (List.replicate (n + 1) k).eraseDups = [k] := by
  have hnone : (List.replicate n k).filter (fun b => !b == k) = [] := by
    simp
  rw [List.replicate_succ, List.eraseDups_cons, hnone, List.eraseDups_nil]

/-- The code points of the first interval, and those of the others. -/
theorem range'_split {lo hi : Nat} (hle : lo ≤ hi) (hhi : hi < endMark) :
    List.range' lo (endMark - lo)
      = List.range' lo (hi - lo + 1) ++ List.range' (hi + 1) (endMark - (hi + 1)) := by
  rw [show hi + 1 = lo + (hi - lo + 1) by omega, List.range'_append_1]
  congr 1
  omega

/-- Intervals have the values of their code points, in the same order. -/
theorem Covers.eraseDups_map {f : Nat → Nat} {lo : Nat} {items : List (Nat × Nat × Nat)}
    (h : Covers f lo items) :
    ((List.range' lo (endMark - lo)).map f).eraseDups
      = (items.dropLast.map fun i => i.2.2).eraseDups := by
  induction h with
  | last k => simp
  | @cons lo hi k rest hle hhi hvalue hrest ih =>
    have hne : rest ≠ [] := by
      cases hrest <;> simp
    have hconst : (List.range' lo (hi - lo + 1)).map f = List.replicate (hi - lo + 1) k := by
      refine List.eq_replicate_iff.mpr ⟨by simp, fun x hx => ?_⟩
      obtain ⟨c, hc, rfl⟩ := List.mem_map.mp hx
      rw [List.mem_range'_1] at hc
      exact hvalue c hc.1 (by omega)
    rw [range'_split hle hhi, List.map_append, hconst, List.dropLast_cons_of_ne_nil hne,
      List.map_cons]
    exact eraseDups_append_congr
      ((eraseDups_replicate_succ _ k).trans (eraseDups_replicate_succ 0 k).symm) ih

namespace Alphabet

theorem map_class_intervals (sets : List CharSet) :
    (of sets).intervals.map (fun i => i.2.2) = (of sets).classes := by
  have hpos : 0 < (of sets).starts.length := by
    rw [of_eq]
    simp
  have hstops : (of sets).stops.length = (of sets).starts.length := by
    simp only [stops, List.length_append, List.length_drop, List.length_singleton]
    omega
  rw [intervals, List.map_map]
  refine List.map_snd_zip ?_
  rw [List.length_zip, hstops, Nat.min_self]
  exact (length_classes sets).le

/-- **Classes are numbered by their first code point.** -/
theorem eraseDups_classOf_range (sets : List CharSet) :
    ((List.range endMark).map (of sets).classOf).eraseDups
      = (List.range ((of sets).count - 1)).map (· + 1) := by
  have hnumbers : (numbering sets).1.eraseDups = List.range (numbering sets).2.size := by
    have h := eraseDups_internAll ((lowCuts sets).map (signature sets)) #[]
    rwa [Array.size_empty, List.range_zero, List.nil_append] at h
  have hlow : (of sets).intervals.dropLast.map (fun i => i.2.2)
      = (numbering sets).1.map (· + 1) := by
    rw [List.map_dropLast, map_class_intervals, of_eq]
    exact List.dropLast_concat
  have hcover := (Alphabet.covers sets).eraseDups_map
  rw [Nat.sub_zero, ← List.range_eq_range', hlow,
    eraseDups_map_of_injective Nat.succ_injective, hnumbers] at hcover
  rw [hcover, of_eq]
  rfl

theorem eraseDups_classOf (sets : List CharSet) :
    (codePoints.map (of sets).classOf).eraseDups = List.range (of sets).count := by
  have hpos : ((List.range endMark).map (of sets).classOf).filter (fun k => !k == eoiClass)
      = (List.range endMark).map (of sets).classOf := by
    refine List.filter_eq_self.mpr fun k hk => ?_
    obtain ⟨c, hc, rfl⟩ := List.mem_map.mp hk
    have := (classOf_of_lt sets (List.mem_range.mp hc)).1
    have hne : (of sets).classOf c ≠ eoiClass := Nat.ne_of_gt this
    simpa using hne
  obtain ⟨n, hn⟩ := Nat.exists_eq_succ_of_ne_zero (Nat.ne_of_gt (count_pos sets))
  rw [codePoints, List.map_cons, classOf_endMark, List.eraseDups_cons, hpos,
    eraseDups_classOf_range, hn, List.range_succ_eq_map]
  rfl

/-- The classes are those of the code points. -/
theorem exists_classOf {sets : List CharSet} {k : Nat} :
    k < (of sets).count ↔ ∃ c ≤ endMark, (of sets).classOf c = k := by
  rw [← List.mem_range, ← eraseDups_classOf, List.mem_eraseDups, List.mem_map]
  exact exists_congr fun c => and_congr_left fun _ => mem_codePoints

/-- The end of the input is alone in its class. -/
theorem classOf_eq_eoiClass {sets : List CharSet} {c : Nat} (hc : c ≤ endMark) :
    (of sets).classOf c = eoiClass ↔ c = endMark := by
  constructor
  · intro h
    rcases Nat.lt_or_ge c endMark with hlt | hge
    · exact absurd h (Nat.ne_of_gt (classOf_of_lt sets hlt).1)
    · exact Nat.le_antisymm hc hge
  · rintro rfl
    exact classOf_endMark sets

section

variable {β : Type} [BEq β] [LawfulBEq β]

/-- **What is listed by classes first occurs in the order of code points.** -/
theorem eraseDups_filterMap_range (sets : List CharSet) (f : Nat → Option β) :
    ((List.range (of sets).count).filterMap f).eraseDups
      = (codePoints.filterMap fun c => f ((of sets).classOf c)).eraseDups := by
  rw [← eraseDups_classOf, ← eraseDups_filterMap, List.filterMap_map]
  rfl

/-- The same for all classes but that of the end of the input. -/
theorem eraseDups_map_range (sets : List CharSet) (f : Nat → β) :
    ((List.range ((of sets).count - 1)).map fun k => f (k + 1)).eraseDups
      = ((List.range endMark).map fun c => f ((of sets).classOf c)).eraseDups := by
  have h := eraseDups_map f ((List.range endMark).map (of sets).classOf)
  rw [eraseDups_classOf_range, List.map_map, List.map_map] at h
  exact h.symm

end

end Alphabet

/-! ## 2. Ranges, one code point at a time -/

/-- Puts a code point in front of ranges. -/
def addCodePoint (f : Nat → Nat) (c : Nat) (ranges : List ClassRange) : List ClassRange :=
  consRange ⟨c, c, f c⟩ ranges

/-- The first code point of a range is joined with the others. -/
theorem consRange_consRange (lo hi k : Nat) (ranges : List ClassRange) :
    consRange ⟨lo, lo, k⟩ (consRange ⟨lo + 1, hi, k⟩ ranges) = consRange ⟨lo, hi, k⟩ ranges := by
  cases ranges with
  | nil => simp [consRange]
  | cons s rest =>
    by_cases hjoin : k = s.cls ∧ hi + 1 = s.first
    · simp [consRange, hjoin]
    · simp [consRange, hjoin]

/-- A range is put in front like its code points. -/
theorem consRange_eq_foldr {f : Nat → Nat} {k : Nat} (ranges : List ClassRange) (n : Nat) :
    ∀ lo, (∀ c, lo ≤ c → c ≤ lo + n → f c = k) → consRange ⟨lo, lo + n, k⟩ ranges
      = (List.range' lo (n + 1)).foldr (addCodePoint f) ranges := by
  induction n with
  | zero =>
    intro lo hvalue
    rw [List.range'_one, List.foldr_cons, List.foldr_nil, addCodePoint,
      hvalue lo (Nat.le_refl _) (Nat.le_refl _)]
    rfl
  | succ n ih =>
    intro lo hvalue
    have hrest := ih (lo + 1) fun c hlo hhi => hvalue c (by omega) (by omega)
    rw [List.range'_succ, List.foldr_cons, ← hrest, addCodePoint,
      hvalue lo (Nat.le_refl _) (by omega), consRange_consRange]
    congr 2
    omega

/-- **Ranges are the same as if they were joined from single code points.** -/
theorem Covers.foldr_addRange {f : Nat → Nat} {lo : Nat} {items : List (Nat × Nat × Nat)}
    (merge : Merge) (h : Covers f lo items) :
    items.foldr (addRange merge) []
      = (List.range' (max lo 128) (endMark - max lo 128)).foldr
          (addCodePoint fun c => merge.classOf.getD (f c) 0) [] := by
  induction h with
  | last k =>
    rw [List.foldr_cons, List.foldr_nil, addRange, if_pos (by simp)]
    rw [show max endMark 128 = endMark from rfl, Nat.sub_self]
    rfl
  | @cons lo hi k rest hle hhi hvalue _ ih =>
    rw [List.foldr_cons, ih, addRange]
    by_cases hlow : hi < 128
    · rw [if_pos (by simp [hlow]), show max (hi + 1) 128 = max lo 128 by omega]
    · rw [if_neg (by simp [hlow, Nat.ne_of_lt (Nat.lt_of_le_of_lt hle hhi)]),
        show max (hi + 1) 128 = hi + 1 by omega,
        range'_split (Nat.max_le.mpr ⟨hle, Nat.not_lt.mp hlow⟩) hhi, List.foldr_append]
      have hcons := @consRange_eq_foldr (fun c => merge.classOf.getD (f c) 0)
        (merge.classOf.getD k 0)
        ((List.range' (hi + 1) (endMark - (hi + 1))).foldr
          (addCodePoint fun c => merge.classOf.getD (f c) 0) []) (hi - max lo 128) (max lo 128) ?_
      · rwa [show max lo 128 + (hi - max lo 128) = hi by omega] at hcons
      · intro c hlo hhi
        rw [hvalue c (by omega) (by omega)]

theorem classRanges_of (sets : List CharSet) (merge : Merge) :
    classRanges (.of sets) merge = (List.range' 128 (endMark - 128)).foldr
      (addCodePoint fun c => merge.classOf.getD ((Alphabet.of sets).classOf c) 0) [] := by
  rw [classRanges_eq, (Alphabet.covers sets).foldr_addRange merge]
  rfl

end GrammarTables.Lexical
