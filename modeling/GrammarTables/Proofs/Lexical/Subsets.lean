import GrammarTables.Lexical.Dfa
import GrammarTables.Proofs.Arrays
import GrammarTables.Proofs.Exploration
import GrammarTables.Proofs.Reachability
/-
# The subset construction

A state of the deterministic automaton that is reached by reading some classes stands for exactly
the states that the nondeterministic one reaches by them, and where no transition is left, none
is reached (`Dfa.ofNfa_subsets`).
-/

namespace GrammarTables.Lexical

/-! ## 1. Sets of states -/

namespace ClassNfa

/-- A move from one of some states by a class. -/
def Moves (a : ClassNfa) (set : List Nat) (k t : Nat) : Prop :=
  ∃ s ∈ set, (k, t) ∈ a.moves.getD s []

theorem mem_targets {a : ClassNfa} {classes : Nat} {set : List Nat} {k t : Nat} :
    t ∈ (a.targets classes set).getD k [] ↔ k < classes ∧ a.Moves set k t := by
  have h := (collects_modify (fun m : Nat × Nat => m.1) (fun m => [m.2]) k t).foldl.mem_replicate
    (n := classes) (x := set.flatMap fun s => a.moves.getD s [])
  refine Iff.trans h ?_
  simp only [List.mem_flatMap, List.mem_singleton, Moves]
  constructor
  · rintro ⟨hlt, ⟨j, u⟩, ⟨s, hs, hm⟩, rfl, rfl⟩
    exact ⟨hlt, s, hs, hm⟩
  · rintro ⟨hlt, s, hs, hm⟩
    exact ⟨hlt, (k, t), ⟨s, hs, hm⟩, rfl, rfl⟩

theorem size_targets (a : ClassNfa) (classes : Nat) (set : List Nat) :
    (a.targets classes set).size = classes := by
  have h := (collects_modify (fun m : Nat × Nat => m.1) (fun m => [m.2]) 0 0).foldl.size
    (Array.replicate classes []) (set.flatMap fun s => a.moves.getD s [])
  rw [Array.size_replicate] at h
  exact h

/-- The edges that leave a set of states. -/
theorem mem_next {a : ClassNfa} {classes : Nat} {set set' : List Nat} {k : Nat} :
    (k, set') ∈ a.next classes set ↔ k < classes ∧ (∃ t, a.Moves set k t) ∧
      set' = a.closure ((a.targets classes set).getD k []) := by
  unfold next
  rw [List.mem_filterMap]
  constructor
  · rintro ⟨⟨seeds, j⟩, hmem, hsome⟩
    rw [List.mem_zipIdx_iff_getElem?] at hmem
    simp only at hmem hsome
    split at hsome
    · cases hsome
    · rename_i hne
      cases hsome
      have hgetD : (a.targets classes set).getD k [] = seeds := by
        rw [Array.getD_eq_getD_getElem?, ← Array.getElem?_toList, hmem]
        rfl
      obtain ⟨t, ht⟩ := List.exists_mem_of_ne_nil seeds (by simpa using hne)
      rw [← hgetD] at ht
      obtain ⟨hlt, hmoves⟩ := mem_targets.mp ht
      exact ⟨hlt, ⟨t, hmoves⟩, by rw [hgetD]⟩
  · rintro ⟨hlt, ⟨t, hmoves⟩, rfl⟩
    have ht := mem_targets.mpr ⟨hlt, hmoves⟩
    refine ⟨((a.targets classes set).getD k [], k), ?_, ?_⟩
    · rw [List.mem_zipIdx_iff_getElem?]
      have hsize : k < (a.targets classes set).size := by rwa [size_targets]
      simp only [Array.getElem?_toList]
      rw [Array.getD_eq_getD_getElem?, Array.getElem?_eq_getElem hsize]
      rfl
    · have hne : ((a.targets classes set).getD k []).isEmpty = false := by
        rw [List.isEmpty_eq_false_iff]
        exact List.ne_nil_of_mem ht
      simp only [hne, Bool.false_eq_true, if_false]

/-- The classes of the edges differ. -/
theorem next_unique {a : ClassNfa} {classes : Nat} {set set₁ set₂ : List Nat} {k : Nat}
    (h₁ : (k, set₁) ∈ a.next classes set) (h₂ : (k, set₂) ∈ a.next classes set) : set₁ = set₂ := by
  rw [(mem_next.mp h₁).2.2, (mem_next.mp h₂).2.2]

/-- The set of states that follows a set of states by a class, if there is one. -/
def follow (a : ClassNfa) (classes : Nat) (set : List Nat) (k : Nat) :
    Option (List Nat) :=
  if ((a.targets classes set).getD k []).isEmpty then none
  else some (a.closure ((a.targets classes set).getD k []))

theorem map_snd_next (a : ClassNfa) (classes : Nat) (set : List Nat) :
    (a.next classes set).map (·.2) = (List.range classes).filterMap (a.follow classes set) := by
  have hzip : (a.targets classes set).toList.zipIdx
      = (List.range classes).map fun k => ((a.targets classes set).getD k [], k) := by
    refine List.ext_getElem (by simp [size_targets]) fun k hk _ => ?_
    have hlt : k < (a.targets classes set).size := by simpa using hk
    simp [Array.getD_eq_getD_getElem?, hlt]
  rw [next, hzip, List.filterMap_map, List.map_filterMap]
  refine List.filterMap_congr fun k _ => ?_
  simp only [Function.comp_apply, follow]
  split <;> rfl

/-- **There are few enough sets**: the exploration finds all that can be reached. -/
theorem explores_next (a : ClassNfa) (starts : List Nat) (classes : Nat) :
    Graph.Explores (a.next classes) (starts.map fun s => a.closure [s])
      (Graph.explore (Nat.pow 2 a.silent.size) (a.next classes)
        (starts.map fun s => a.closure [s])).1
      (Graph.explore (Nat.pow 2 a.silent.size) (a.next classes)
        (starts.map fun s => a.closure [s])).2 := by
  obtain ⟨sets, hcard, hsets⟩ :=
    Graph.exists_finset_of_ordered ranks_lt (Finset.range a.silent.size)
  have hclosure : ∀ seeds : List Nat, a.closure seeds ∈ sets := by
    intro seeds
    refine hsets _ ((Graph.pairwise_reachable _ _ _).imp fun h => by simpa using h) fun s hs => ?_
    exact Finset.mem_range.mpr (Graph.lt_of_mem_reachable hs)
  refine Graph.explores (P := (· ∈ sets)) ?_ ?_ (fun _ h => h) ?_
  · intro set hset
    obtain ⟨s, -, rfl⟩ := List.mem_map.mp hset
    exact hclosure _
  · rintro set - ⟨k, set'⟩ hnext
    rw [(mem_next.mp hnext).2.2]
    exact hclosure _
  · simpa using hcard

end ClassNfa

/-! ## 2. The deterministic automaton -/

/-- The states of `d` stand for sets of states of `a`, and its transitions lead from sets to the
sets that follow. -/
structure Subsets (a : ClassNfa) (starts : List Nat) (classes : Nat) (before : Nat → Nat → Bool)
    (d : Dfa) : Prop where
  nodup : d.sets.toList.Nodup
  starts_eq : d.starts.map (fun n => d.sets[n]?) = starts.map fun s => some (a.closure [s])
  step_some : ∀ {n k m : Nat} {set : List Nat}, d.sets[n]? = some set → d.step n k = some m →
    k < classes ∧ (∃ t, a.Moves set k t) ∧
      d.sets[m]? = some (a.closure ((a.targets classes set).getD k []))
  step_none : ∀ {n k t : Nat} {set : List Nat}, d.sets[n]? = some set → k < classes →
    d.step n k = none → ¬ a.Moves set k t
  accepts_eq : ∀ {n : Nat} {set : List Nat}, d.sets[n]? = some set →
    d.acceptsOf n = a.accepted before set
  step_lt : ∀ {n k m : Nat}, d.step n k = some m → n < d.size

namespace Subsets

variable {a : ClassNfa} {starts : List Nat} {classes : Nat} {before : Nat → Nat → Bool} {d : Dfa}
  {n : Nat} {set : List Nat}

/-- A state accepts what the states it stands for accept. -/
theorem mem_acceptsOf (h : Subsets a starts classes before d) (hranks : Ranks before)
    (hn : d.sets[n]? = some set) {r : Nat} :
    r ∈ d.acceptsOf n ↔ ∃ t ∈ set, a.accept.getD t none = some r := by
  rw [h.accepts_eq hn, ClassNfa.accepted, hranks.mem_sortBy, List.mem_filterMap]

theorem pairwise_acceptsOf (h : Subsets a starts classes before d) (hranks : Ranks before)
    (hn : d.sets[n]? = some set) : (d.acceptsOf n).Pairwise (before · · = true) := by
  rw [h.accepts_eq hn]
  exact hranks.pairwise_sortBy _

end Subsets

theorem getD_rowOf {classes : Nat} {edges : List (Nat × Nat)}
    (hfun : ∀ {k t u : Nat}, (k, t) ∈ edges → (k, u) ∈ edges → t = u) {k t : Nat} :
    (Dfa.rowOf classes edges).getD k none = some t ↔ k < classes ∧ (k, t) ∈ edges := by
  have hrow : Dfa.rowOf classes edges
      = edges.foldl (put fun e => some e) (Array.replicate classes none) := rfl
  rw [hrow, getD_foldl_put]
  · constructor
    · rintro ⟨hlt, e, he, heq⟩
      cases heq
      exact ⟨hlt, he⟩
    · rintro ⟨hlt, he⟩
      exact ⟨hlt, (k, t), he, rfl⟩
  · intro x hx y hy b c hb hc
    cases hb
    cases hc
    exact hfun hx hy

/-- A row holds exactly the edges of its set. -/
theorem mem_row_iff {a : ClassNfa} {classes : Nat} {keys : Array (List Nat)}
    (hnodup : keys.toList.Nodup) {set : List Nat} {row : List (Nat × Nat)}
    (hrow : Graph.RowOf (a.next classes) keys set row) {k m : Nat} :
    (k, m) ∈ row ↔ ∃ set', (k, set') ∈ a.next classes set ∧ keys[m]? = some set' := by
  constructor
  · intro hm
    have hmem : (k, keys[m]?) ∈ (a.next classes set).map fun e => (e.1, some e.2) := by
      rw [← hrow]
      exact List.mem_map.mpr ⟨(k, m), hm, rfl⟩
    obtain ⟨⟨j, set'⟩, hnext, heq⟩ := List.mem_map.mp hmem
    simp only [Prod.mk.injEq] at heq
    obtain ⟨rfl, heq⟩ := heq
    exact ⟨set', hnext, heq.symm⟩
  · rintro ⟨set', hnext, hm⟩
    have hmem : (k, some set') ∈ row.map fun e => (e.1, keys[e.2]?) := by
      rw [hrow]
      exact List.mem_map.mpr ⟨(k, set'), hnext, rfl⟩
    obtain ⟨⟨j, m'⟩, hrowm, heq⟩ := List.mem_map.mp hmem
    simp only [Prod.mk.injEq] at heq
    obtain ⟨rfl, heq⟩ := heq
    rw [← eq_of_getElem?_eq hnodup heq hm]
    exact hrowm

/-- **The subset construction gives an automaton of subsets.** -/
theorem Dfa.ofNfa_subsets (a : ClassNfa) (starts : List Nat) (classes : Nat)
    (before : Nat → Nat → Bool) :
    Subsets a starts classes before (Dfa.ofNfa a starts classes before) := by
  have h := a.explores_next starts classes
  set numbers := (Graph.explore (Nat.pow 2 a.silent.size) (a.next classes)
    (starts.map fun s => a.closure [s])).1
  set found := (Graph.explore (Nat.pow 2 a.silent.size) (a.next classes)
    (starts.map fun s => a.closure [s])).2
  have hofNfa : Dfa.ofNfa a starts classes before =
      { sets := found.keys, rows := found.rows.map (rowOf classes),
        accepts := found.keys.map (a.accepted before), starts := numbers } := rfl
  rw [hofNfa]
  have hstep : ∀ {n k m : Nat} {set : List Nat}, found.keys[n]? = some set →
      (((found.rows.map (rowOf classes)).getD n #[]).getD k none = some m ↔
        ∃ set', (k, set') ∈ a.next classes set ∧ found.keys[m]? = some set') := by
    intro n k m set hn
    obtain ⟨row, hrow, hrowOf⟩ := h.exists_row hn
    have hgetD : (found.rows.map (rowOf classes)).getD n #[] = rowOf classes row := by
      rw [Array.getD_eq_getD_getElem?, Array.getElem?_map, hrow]
      rfl
    have hfun : ∀ {k t u : Nat}, (k, t) ∈ row → (k, u) ∈ row → t = u := by
      intro k t u ht hu
      obtain ⟨set₁, hnext₁, hkey₁⟩ := (mem_row_iff h.nodup hrowOf).mp ht
      obtain ⟨set₂, hnext₂, hkey₂⟩ := (mem_row_iff h.nodup hrowOf).mp hu
      rw [ClassNfa.next_unique hnext₁ hnext₂] at hkey₁
      exact eq_of_getElem?_eq h.nodup hkey₁ hkey₂
    rw [hgetD, getD_rowOf hfun, mem_row_iff h.nodup hrowOf]
    constructor
    · exact And.right
    · rintro ⟨set', hnext, hm⟩
      exact ⟨(ClassNfa.mem_next.mp hnext).1, set', hnext, hm⟩
  refine ⟨h.nodup, ?_, ?_, ?_, ?_, ?_⟩
  · rw [h.starts_eq, List.map_map]
    rfl
  · intro n k m set hn hm
    obtain ⟨set', hnext, hkey⟩ := (hstep hn).mp hm
    obtain ⟨hlt, hmoves, rfl⟩ := ClassNfa.mem_next.mp hnext
    exact ⟨hlt, hmoves, hkey⟩
  · intro n k t set hn hlt hnone hmoves
    have hnext : (k, a.closure ((a.targets classes set).getD k [])) ∈ a.next classes set :=
      ClassNfa.mem_next.mpr ⟨hlt, ⟨t, hmoves⟩, rfl⟩
    obtain ⟨m, hm⟩ := Array.mem_iff_getElem?.mp
      (h.mem_of_next (Array.mem_of_getElem? hn) hnext)
    have hsome := (hstep hn).mpr ⟨_, hnext, hm⟩
    rw [show ((found.rows.map (rowOf classes)).getD n #[]).getD k none = none from hnone] at hsome
    cases hsome
  · intro n set hn
    simp only [acceptsOf, Array.getD_eq_getD_getElem?, Array.getElem?_map]
    rw [show found.keys[n]? = some set from hn]
    rfl
  · intro n k m hm
    by_contra hge
    have hnone : (found.rows.map (rowOf classes))[n]? = none := by
      refine Array.getElem?_eq_none ?_
      rw [Array.size_map, h.size_rows]
      exact Nat.not_lt.mp hge
    simp [step, Array.getD_eq_getD_getElem?, hnone] at hm

namespace Subsets

variable {a : ClassNfa} {starts : List Nat} {classes : Nat} {before : Nat → Nat → Bool} {d : Dfa}
  {n k m : Nat}

theorem step_eq_none (h : Subsets a starts classes before d) (hn : d.sets[n]? = none) :
    d.step n k = none := by
  cases hstep : d.step n k with
  | none => rfl
  | some m =>
    have hlt : n < d.sets.size := h.step_lt hstep
    rw [Array.getElem?_eq_getElem hlt] at hn
    cases hn

/-- A transition leads to the number of the set that follows. -/
theorem step_iff (h : Subsets a starts classes before d) {set : List Nat}
    (hn : d.sets[n]? = some set) (hk : k < classes) :
    d.step n k = some m ↔ ∃ set', a.follow classes set k = some set' ∧ d.sets[m]? = some set' := by
  have hfollow : ∀ {t : Nat}, a.Moves set k t →
      a.follow classes set k = some (a.closure ((a.targets classes set).getD k [])) := by
    intro t hmoves
    have hne := List.ne_nil_of_mem (ClassNfa.mem_targets.mpr ⟨hk, hmoves⟩)
    rw [ClassNfa.follow, if_neg (by simpa using hne)]
  constructor
  · intro hstep
    obtain ⟨-, ⟨t, hmoves⟩, hm⟩ := h.step_some hn hstep
    exact ⟨_, hfollow hmoves, hm⟩
  · rintro ⟨set', hset', hm⟩
    obtain ⟨t, hmoves⟩ : ∃ t, a.Moves set k t := by
      unfold ClassNfa.follow at hset'
      split at hset'
      · cases hset'
      · rename_i hne
        rw [List.isEmpty_iff] at hne
        obtain ⟨t, ht⟩ := List.exists_mem_of_ne_nil _ hne
        exact ⟨t, (ClassNfa.mem_targets.mp ht).2⟩
    cases hstep : d.step n k with
    | none => exact absurd hmoves (h.step_none hn hk hstep)
    | some m' =>
      obtain ⟨-, -, hm'⟩ := h.step_some hn hstep
      rw [← Option.some.inj (hset'.symm.trans (hfollow hmoves))] at hm'
      rw [eq_of_getElem?_eq h.nodup hm' hm]

end Subsets

end GrammarTables.Lexical
