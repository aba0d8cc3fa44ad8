import GrammarTables.Proofs.Lexical.CodePoints
/-
# Classes are exact and as few as possible

Code points share a class if and only if they lie in the same sets (`Alphabet.classOf_eq_iff`), so
no partition that tells the sets apart has fewer classes.  The classes of a set are those of its
members (`Alphabet.mem_classesOf_iff`), and the intervals follow one another from the first code
point to the end of the input (`Alphabet.consecutive_intervals`).
-/

namespace GrammarTables.Lexical

namespace Alphabet

variable {sets : List CharSet} {s : CharSet} {c c' k : Nat}

/-! ## 1. Code points of one class -/

/-- A code point before the end of the input has the class of an interval that no cut leaves. -/
theorem exists_low_interval (sets : List CharSet) (hc : c < endMark) :
    ∃ start, (start, (of sets).classOf c) ∈ (lowCuts sets).zip ((numbering sets).1.map (· + 1)) ∧
      signature sets start = signature sets c := by
  obtain ⟨start, hzip, hle, hmax⟩ := exists_interval sets c
  refine ⟨start, ?_, ?_⟩
  · rw [zip_starts_classes, List.mem_append, List.mem_singleton] at hzip
    refine hzip.resolve_right fun h => ?_
    exact absurd (h ▸ hle : (endMark, eoiClass).1 ≤ c) (Nat.not_le.mpr hc)
  · exact signature_eq_iff.mpr fun s hs => mem_iff_of_cut hle (Nat.le_of_lt hc) hmax hs

/-- **Code points share a class if and only if they lie in the same sets.** -/
theorem classOf_eq_iff (hc : c < endMark) (hc' : c' < endMark) :
    (of sets).classOf c = (of sets).classOf c' ↔ ∀ s ∈ sets, (c ∈ s ↔ c' ∈ s) := by
  constructor
  · intro h s hs
    rw [← mem_classesOf hs (Nat.le_of_lt hc), h, mem_classesOf hs (Nat.le_of_lt hc')]
  · intro h
    obtain ⟨start, hzip, hsig⟩ := exists_low_interval sets hc
    obtain ⟨start', hzip', hsig'⟩ := exists_low_interval sets hc'
    obtain ⟨n, hn, hkey⟩ := getElem?_numbering hzip
    obtain ⟨n', hn', hkey'⟩ := getElem?_numbering hzip'
    rw [hsig, signature_eq_iff.mpr h, ← hsig'] at hkey
    have hnodup : (numbering sets).2.toList.Nodup := nodup_internAll _ (by simp)
    rw [hn, hn', eq_of_getElem?_eq hnodup hkey hkey']

/-! ## 2. The classes of a set -/

theorem lt_count_of_mem_classes (h : k ∈ (of sets).classes) : k < (of sets).count := by
  obtain ⟨i, hi⟩ := List.mem_iff_getElem?.mp h
  have hlt : i < (of sets).starts.length :=
    length_classes sets ▸ (List.getElem?_eq_some_iff.mp hi).1
  have hzip : ((of sets).starts[i], k) ∈ (of sets).starts.zip (of sets).classes :=
    List.mem_iff_getElem?.mpr
      ⟨i, List.getElem?_zip_eq_some.mpr ⟨List.getElem?_eq_getElem hlt, hi⟩⟩
  rw [zip_starts_classes, List.mem_append, List.mem_singleton] at hzip
  rcases hzip with hzip | hzip
  · exact (class_pos hzip).2.2
  · exact (Prod.mk.inj hzip).2 ▸ count_pos sets

theorem lt_count_of_mem_classesOf (h : k ∈ (of sets).classesOf s) : k < (of sets).count := by
  rw [classesOf, mem_ascending] at h
  obtain ⟨i, -, rfl⟩ := List.mem_map.mp h
  rw [List.getD_eq_getElem?_getD]
  cases hi : (of sets).classes[i]? with
  | none => exact count_pos sets
  | some k => exact lt_count_of_mem_classes (List.mem_of_getElem? hi)

/-- **The classes of a set are the classes of its members.** -/
theorem mem_classesOf_iff (hs : s ∈ sets) :
    k ∈ (of sets).classesOf s ↔ ∃ c ≤ endMark, c ∈ s ∧ (of sets).classOf c = k := by
  constructor
  · intro h
    obtain ⟨c, hc, rfl⟩ := exists_classOf.mp (lt_count_of_mem_classesOf h)
    exact ⟨c, hc, (mem_classesOf hs hc).mp h, rfl⟩
  · rintro ⟨c, hc, hmem, rfl⟩
    exact (mem_classesOf hs hc).mpr hmem

end Alphabet

/-! ## 3. Consecutive intervals -/

/-- Intervals follow one another from a code point to the end of the input, none of them empty, and
a function has one value on each. -/
structure Consecutive (f : Nat → Nat) (lo : Nat) (items : List (Nat × Nat × Nat)) : Prop where
  head : items.head?.map (·.1) = some lo
  last : items.getLast?.map (·.2.1) = some endMark
  next : items.IsChain fun i j => j.1 = i.2.1 + 1
  nonempty : ∀ i ∈ items, i.1 ≤ i.2.1
  value : ∀ i ∈ items, ∀ c, i.1 ≤ c → c ≤ i.2.1 → f c = i.2.2

theorem Covers.consecutive {f : Nat → Nat} {lo : Nat} {items : List (Nat × Nat × Nat)}
    (h : Covers f lo items) (hlast : ∀ i ∈ items.getLast?, i.2.2 = f endMark) :
    Consecutive f lo items := by
  induction h with
  | last k =>
    have hk : k = f endMark := hlast _ rfl
    refine ⟨rfl, rfl, .singleton _, by simp, ?_⟩
    simp only [List.mem_singleton, forall_eq]
    intro c hlo hhi
    rw [Nat.le_antisymm hhi hlo, hk]
  | @cons lo hi k rest hle hhi hvalue hrest ih =>
    have hne : rest ≠ [] := by cases hrest <;> simp
    obtain ⟨i, rest, rfl⟩ := List.exists_cons_of_ne_nil hne
    rw [List.getLast?_cons_cons] at hlast
    have hrow := ih hlast
    refine ⟨rfl, ?_, ?_, ?_, ?_⟩
    · rw [List.getLast?_cons_cons]
      exact hrow.last
    · exact hrow.next.cons_cons (by simpa using hrow.head)
    · exact List.forall_mem_cons.mpr ⟨hle, hrow.nonempty⟩
    · exact List.forall_mem_cons.mpr ⟨hvalue, hrow.value⟩

namespace Alphabet

theorem consecutive_intervals (sets : List CharSet) :
    Consecutive (of sets).classOf 0 (of sets).intervals := by
  refine (covers sets).consecutive fun i hi => ?_
  have hlast := congrArg List.getLast? (map_class_intervals sets)
  rw [List.getLast?_map, Option.mem_def.mp hi, of_eq, List.getLast?_concat] at hlast
  rw [classOf_endMark]
  exact Option.some.inj hlast

/-! ## 4. The partition -/

/-- **The partition is exact and as coarse as can be.**  The end of the input alone has class 0.
Other code points share a class if and only if they lie in the same sets, and whether one lies in a
set can be told from its class.  The intervals follow one another and have the classes of their
code points. -/
theorem partition_exact (sets : List CharSet) :
    (of sets).classOf endMark = 0 ∧
    (∀ c < endMark, 1 ≤ (of sets).classOf c ∧ (of sets).classOf c < (of sets).count) ∧
    (∀ c < endMark, ∀ c' < endMark,
      ((of sets).classOf c = (of sets).classOf c' ↔ ∀ s ∈ sets, (c ∈ s ↔ c' ∈ s))) ∧
    (∀ s ∈ sets, ((of sets).classesOf s).Pairwise (· < ·) ∧
      (∀ k, k ∈ (of sets).classesOf s ↔ ∃ c ≤ endMark, c ∈ s ∧ (of sets).classOf c = k) ∧
      ∀ c ≤ endMark, (c ∈ s ↔ (of sets).classOf c ∈ (of sets).classesOf s)) ∧
    Consecutive (of sets).classOf 0 (of sets).intervals :=
  ⟨classOf_endMark sets, fun _ hc => classOf_of_lt sets hc, fun _ hc _ hc' => classOf_eq_iff hc hc',
    fun _ hs => ⟨pairwise_ascending _, fun _ => mem_classesOf_iff hs,
      fun _ hc => (mem_classesOf hs hc).symm⟩,
    consecutive_intervals sets⟩

end Alphabet

end GrammarTables.Lexical
