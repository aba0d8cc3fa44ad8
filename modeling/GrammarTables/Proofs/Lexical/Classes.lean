import GrammarTables.Proofs.Lexical.Intervals
import GrammarTables.Proofs.Numbering
/-
# Classes tell sets apart

A code point lies in one of the given sets exactly if its class is one of the classes of that set
(`Alphabet.mem_classesOf`): between two cuts no set begins or ends, and intervals share a class
only if they lie in the same sets.  The end of the input has a class of its own.
-/

namespace GrammarTables.Lexical

/-! ## 1. Numbers of classes -/

/-- The cuts before the end of the input. -/
def lowCuts (sets : List CharSet) : List Nat := (cuts sets).filter (· < endMark)

/-- The numbers of the signatures of the cuts, and the signatures by number. -/
def numbering (sets : List CharSet) : List Nat × Array (List Nat) :=
  internAll #[] ((lowCuts sets).map (signature sets))

theorem map_signed (sets : List CharSet) :
    (((cuts sets).zip (signatures (cuts sets) sets).toList).filter (·.1 < endMark)).map (·.2)
      = (lowCuts sets).map (signature sets) := by
  have hzip := @List.zip_map' Nat Nat (List Nat) id (signature sets) (cuts sets)
  rw [List.map_id] at hzip
  rw [signatures_eq, hzip, List.filter_map, List.map_map]
  rfl

theorem Alphabet.of_eq (sets : List CharSet) : Alphabet.of sets =
    ⟨lowCuts sets ++ [endMark], (numbering sets).1.map (· + 1) ++ [eoiClass],
      (numbering sets).2.size + 1⟩ := by
  rw [Alphabet.of, map_signed, lowCuts, ← cuts_eq]
  rfl

theorem length_numbering (sets : List CharSet) :
    (numbering sets).1.length = (lowCuts sets).length := by
  rw [numbering, length_internAll, List.length_map]

theorem zip_starts_classes (sets : List CharSet) :
    (Alphabet.of sets).starts.zip (Alphabet.of sets).classes =
      (lowCuts sets).zip ((numbering sets).1.map (· + 1)) ++ [(endMark, eoiClass)] := by
  rw [Alphabet.of_eq]
  simp only
  rw [List.zip_append (by rw [List.length_map, length_numbering])]
  rfl

/-- An interval before the end of the input has the class that its signature is numbered with. -/
theorem getElem?_numbering {sets : List CharSet} {start k : Nat}
    (h : (start, k) ∈ (lowCuts sets).zip ((numbering sets).1.map (· + 1))) :
    ∃ n, k = n + 1 ∧ (numbering sets).2[n]? = some (signature sets start) := by
  obtain ⟨i, hi⟩ := List.mem_iff_getElem?.mp h
  obtain ⟨hstart, hk⟩ := List.getElem?_zip_eq_some.mp hi
  rw [List.getElem?_map] at hk
  obtain ⟨n, hn, rfl⟩ := Option.map_eq_some_iff.mp hk
  have hsig : ((lowCuts sets).map (signature sets))[i]? = some (signature sets start) := by
    rw [List.getElem?_map, hstart, Option.map_some]
  obtain ⟨m, hm, hkey⟩ := @getElem?_internAll _ _ #[] _ _ _ hsig
  obtain rfl : n = m := Option.some.inj (hn.symm.trans hm)
  exact ⟨n, rfl, hkey⟩

/-- The classes of two intervals are equal only if they lie in the same sets. -/
theorem signature_eq_of_class_eq {sets : List CharSet} {start start' k : Nat}
    (h : (start, k) ∈ (lowCuts sets).zip ((numbering sets).1.map (· + 1)))
    (h' : (start', k) ∈ (lowCuts sets).zip ((numbering sets).1.map (· + 1))) :
    signature sets start = signature sets start' := by
  obtain ⟨n, rfl, hn⟩ := getElem?_numbering h
  obtain ⟨m, hm, hm'⟩ := getElem?_numbering h'
  obtain rfl := Nat.succ.inj hm
  exact Option.some.inj (hn.symm.trans hm')

namespace Alphabet

theorem length_classes (sets : List CharSet) :
    (of sets).classes.length = (of sets).starts.length := by
  rw [of_eq]
  simp [length_numbering]

/-- The interval of a code point and its class. -/
theorem exists_interval (sets : List CharSet) (c : Nat) :
    ∃ start, (start, (of sets).classOf c) ∈ (of sets).starts.zip (of sets).classes ∧ start ≤ c ∧
      ∀ x ∈ cuts sets, x ≤ c → x ≤ start := by
  have hstarts : (of sets).starts = cuts sets := rfl
  have hzero : 0 ∈ cuts sets := mem_cuts.mpr ⟨Or.inl rfl, Nat.zero_le _⟩
  obtain ⟨start, hstart, hle, hmax⟩ := exists_last_le (pairwise_cuts sets) hzero (Nat.zero_le c)
  refine ⟨start, ?_, hle, hmax⟩
  rw [← intervalAt_eq (pairwise_cuts sets)] at hstart
  have hlt : (of sets).intervalOf c < (of sets).classes.length := by
    rw [length_classes, hstarts]
    exact (List.getElem?_eq_some_iff.mp hstart).1
  refine List.mem_iff_getElem?.mpr
    ⟨(of sets).intervalOf c, List.getElem?_zip_eq_some.mpr ⟨hstart, ?_⟩⟩
  rw [classOf, List.getElem?_eq_getElem hlt]
  simp [List.getD, List.getElem?_eq_getElem hlt]

theorem class_pos {sets : List CharSet} {start k : Nat}
    (h : (start, k) ∈ (lowCuts sets).zip ((numbering sets).1.map (· + 1))) :
    start < endMark ∧ 0 < k ∧ k < (of sets).count := by
  have hpair := List.of_mem_zip h
  refine ⟨by simpa using (List.mem_filter.mp hpair.1).2, ?_⟩
  obtain ⟨n, hn, rfl⟩ := List.mem_map.mp hpair.2
  refine ⟨Nat.succ_pos n, ?_⟩
  obtain ⟨i, hi⟩ := List.mem_iff_getElem?.mp hn
  have hmap := congrArg (fun l => l[i]?)
    (map_getElem?_internAll ((lowCuts sets).map (signature sets)) #[])
  simp only [List.getElem?_map] at hmap
  have hnum : (internAll #[] ((lowCuts sets).map (signature sets))).1[i]? = some n := hi
  rw [hnum, Option.map_some] at hmap
  obtain ⟨x, -, hx⟩ := Option.map_eq_some_iff.mp hmap.symm
  have hlt := (Array.getElem?_eq_some_iff.mp hx.symm).1
  rw [of_eq]
  exact Nat.succ_lt_succ hlt

/-- The classes of a set are those of the intervals that begin in it. -/
theorem mem_classesOf_iff_start {sets : List CharSet} {s : CharSet} (hs : s ∈ sets) {k : Nat} :
    k ∈ (of sets).classesOf s ↔
      ∃ start, (start, k) ∈ (of sets).starts.zip (of sets).classes ∧ start ∈ s := by
  have hlength := length_classes sets
  have hstarts : (of sets).starts = cuts sets := rfl
  rw [classesOf, mem_ascending, List.mem_map, hstarts] at *
  constructor
  · rintro ⟨i, hi, rfl⟩
    obtain ⟨start, hstart, hmem⟩ := (mem_walkSet hs).mp hi
    have hlt : i < (of sets).classes.length := hlength ▸ (List.getElem?_eq_some_iff.mp hstart).1
    refine ⟨start, List.mem_iff_getElem?.mpr ⟨i, List.getElem?_zip_eq_some.mpr ⟨hstart, ?_⟩⟩, hmem⟩
    rw [List.getD_eq_getElem?_getD, List.getElem?_eq_getElem hlt, Option.getD_some]
  · rintro ⟨start, hzip, hmem⟩
    obtain ⟨i, hi⟩ := List.mem_iff_getElem?.mp hzip
    obtain ⟨hstart, hk⟩ := List.getElem?_zip_eq_some.mp hi
    refine ⟨i, (mem_walkSet hs).mpr ⟨start, hstart, hmem⟩, ?_⟩
    rw [List.getD_eq_getElem?_getD, hk, Option.getD_some]

/-- **A code point lies in a set exactly if its class is one of the classes of the set.** -/
theorem mem_classesOf {sets : List CharSet} {s : CharSet} (hs : s ∈ sets) {c : Nat}
    (hc : c ≤ endMark) : (of sets).classOf c ∈ (of sets).classesOf s ↔ c ∈ s := by
  obtain ⟨start, hzip, hle, hmax⟩ := exists_interval sets c
  have hsame := mem_iff_of_cut hle hc hmax hs
  rw [mem_classesOf_iff_start hs]
  constructor
  · rintro ⟨start', hzip', hmem⟩
    rw [zip_starts_classes, List.mem_append, List.mem_singleton] at hzip hzip'
    rcases hzip with hzip | hzip
    · rcases hzip' with hzip' | hzip'
      · have hsig := signature_eq_iff.mp (signature_eq_of_class_eq hzip hzip')
        exact hsame.mp ((hsig s hs).mpr hmem)
      · have hpos := (class_pos hzip).2.1
        rw [(Prod.mk.inj hzip').2] at hpos
        exact absurd hpos (Nat.lt_irrefl 0)
    · rcases hzip' with hzip' | hzip'
      · have hpos := (class_pos hzip').2.1
        rw [(Prod.mk.inj hzip).2] at hpos
        exact absurd hpos (Nat.lt_irrefl 0)
      · rw [← hsame, (Prod.mk.inj hzip).1, ← (Prod.mk.inj hzip').1]
        exact hmem
  · exact fun hmem => ⟨start, hzip, hsame.mpr hmem⟩

/-- The class of a character, which is never the one of the end of the input. -/
theorem classOf_of_lt (sets : List CharSet) {c : Nat} (hc : c < endMark) :
    0 < (of sets).classOf c ∧ (of sets).classOf c < (of sets).count := by
  obtain ⟨start, hzip, hle, -⟩ := exists_interval sets c
  rw [zip_starts_classes, List.mem_append, List.mem_singleton] at hzip
  rcases hzip with hzip | hzip
  · exact (class_pos hzip).2
  · have := (Prod.mk.inj hzip).1
    omega

theorem classOf_endMark (sets : List CharSet) : (of sets).classOf endMark = eoiClass := by
  obtain ⟨start, hzip, hle, hmax⟩ := exists_interval sets endMark
  have hend := hmax endMark (mem_cuts.mpr ⟨Or.inr (Or.inl rfl), Nat.le_refl _⟩) (Nat.le_refl _)
  rw [zip_starts_classes, List.mem_append, List.mem_singleton] at hzip
  rcases hzip with hzip | hzip
  · have := (class_pos hzip).1
    omega
  · exact (Prod.mk.inj hzip).2

theorem count_pos (sets : List CharSet) : 0 < (of sets).count := by
  rw [of_eq]
  exact Nat.succ_pos _

theorem classOf_lt_count (sets : List CharSet) {c : Nat} (hc : c ≤ endMark) :
    (of sets).classOf c < (of sets).count := by
  rcases Nat.lt_or_eq_of_le hc with hlt | rfl
  · exact (classOf_of_lt sets hlt).2
  · rw [classOf_endMark]
    exact count_pos sets

end Alphabet

end GrammarTables.Lexical
