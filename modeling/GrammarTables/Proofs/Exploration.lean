import Mathlib.Data.Finset.Powerset
import Mathlib.Logic.Relation
import GrammarTables.Graph.Explore
import GrammarTables.Proofs.FirstOccurrence
import GrammarTables.Proofs.Ordered
/-
# Discovering a graph whose vertices are computed: what is found

`explore` finds every key that the starts lead to and nothing else, numbers each key once, and
gives each key a row that lists its edges (`explores`).  The bound on the number of expansions
is never met if all keys lie in a finite set of at most that many elements: keys are different,
and a row is added for each.

The order of discovery does not depend on what the keys are, nor on labels or on edges that lead to
one key more than once (`explore_map`).
-/

namespace GrammarTables.Graph

variable {κ : Type} [DecidableEq κ]

/-! ## 1. Discoveries in progress -/

/-- The row lists the edges of the key `k`, the targets by their numbers. -/
def RowOf (next : κ → List (Nat × κ)) (keys : Array κ) (k : κ) (row : List (Nat × Nat)) : Prop :=
  row.map (fun e => (e.1, keys[e.2]?)) = (next k).map fun e => (e.1, some e.2)

/-- What holds of a discovery at any time. -/
structure Found (next : κ → List (Nat × κ)) (d : Discovery κ) : Prop where
  nodup : d.keys.toList.Nodup
  rows_le : d.rows.size ≤ d.keys.size
  row : ∀ {i : Nat} {k : κ} {row : List (Nat × Nat)}, d.keys[i]? = some k →
    d.rows[i]? = some row → RowOf next d.keys k row

omit [DecidableEq κ] in
/-- Rows stay right when keys are added. -/
theorem RowOf.mono {next : κ → List (Nat × κ)} {keys keys' : Array κ} {k : κ}
    {row : List (Nat × Nat)} (h : RowOf next keys k row)
    (hkeys : ∀ {i : Nat} {x : κ}, keys[i]? = some x → keys'[i]? = some x) :
    RowOf next keys' k row := by
  unfold RowOf at h ⊢
  rw [← h]
  refine List.map_congr_left fun e he => ?_
  have hmem : (e.1, keys[e.2]?) ∈ (next k).map fun e => (e.1, some e.2) := by
    rw [← h]
    exact List.mem_map.mpr ⟨e, he, rfl⟩
  obtain ⟨f, -, hf⟩ := List.mem_map.mp hmem
  have hsome : keys[e.2]? = some f.2 := (congrArg Prod.snd hf).symm
  rw [hsome, hkeys hsome]

/-- The row that an expansion adds lists the edges of the key. -/
theorem rowOf_internAll (next : κ → List (Nat × κ)) (keys : Array κ) (k : κ) :
    RowOf next (internAll keys ((next k).map (·.2))).2 k
      (((next k).map (·.1)).zip (internAll keys ((next k).map (·.2))).1) := by
  have hnum := map_getElem?_internAll ((next k).map (·.2)) keys
  unfold RowOf
  calc (((next k).map (·.1)).zip (internAll keys ((next k).map (·.2))).1).map
        (fun e => (e.1, (internAll keys ((next k).map (·.2))).2[e.2]?))
      = ((next k).map (·.1)).zip ((internAll keys ((next k).map (·.2))).1.map
          fun n => (internAll keys ((next k).map (·.2))).2[n]?) := by
        rw [List.zip_map_right]
        rfl
    _ = ((next k).map (·.1)).zip (((next k).map (·.2)).map some) := by rw [hnum]
    _ = (next k).map fun e => (e.1, some e.2) := by
        rw [List.map_map, List.zip_map']
        rfl

/-- The discovery after the next key was expanded. -/
def Discovery.grow (next : κ → List (Nat × κ)) (d : Discovery κ) (k : κ) : Discovery κ :=
  ⟨(internAll d.keys ((next k).map (·.2))).2,
    d.rows.push (((next k).map (·.1)).zip (internAll d.keys ((next k).map (·.2))).1)⟩

theorem expand_succ (next : κ → List (Nat × κ)) (bound : Nat) (d : Discovery κ) :
    expand next (bound + 1) d = match d.keys[d.rows.size]? with
      | none => d
      | some k => expand next bound (d.grow next k) := rfl

/-- One expansion keeps what holds of a discovery. -/
theorem Found.grow {next : κ → List (Nat × κ)} {d : Discovery κ} (h : Found next d) {k : κ}
    (hk : d.keys[d.rows.size]? = some k) : Found next (d.grow next k) where
  nodup := nodup_internAll _ h.nodup
  rows_le := by
    have hlt := (Array.getElem?_eq_some_iff.mp hk).1
    have hle := size_le_size_internAll ((next k).map (·.2)) d.keys
    simp only [Discovery.grow, Array.size_push]
    omega
  row := by
    intro i x row hx hrow
    simp only [Discovery.grow] at hx hrow ⊢
    rw [Array.getElem?_push] at hrow
    split at hrow
    · rename_i hi
      subst hi
      -- the row that was added belongs to the key that was expanded
      have hkx := getElem?_internAll_of_some ((next k).map (·.2)) hk
      rw [hx, Option.some.injEq] at hkx
      rw [hkx, ← Option.some.inj hrow]
      exact rowOf_internAll next d.keys k
    · obtain ⟨hlt, -⟩ := Array.getElem?_eq_some_iff.mp hrow
      have hlt' : i < d.keys.size := Nat.lt_of_lt_of_le hlt h.rows_le
      have hold : d.keys[i]? = some d.keys[i] := Array.getElem?_eq_getElem hlt'
      have hsame := getElem?_internAll_of_some ((next k).map (·.2)) hold
      rw [hx, Option.some.injEq] at hsame
      rw [hsame]
      exact (h.row hold hrow).mono (getElem?_internAll_of_some _)

theorem Found.expand {next : κ → List (Nat × κ)} (bound : Nat) : ∀ {d : Discovery κ},
    Found next d → Found next (expand next bound d) := by
  induction bound with
  | zero => intro d h; exact h
  | succ bound ih =>
    intro d h
    rw [expand_succ]
    split
    · exact h
    · rename_i k hk
      exact ih (h.grow hk)

/-- Keys that were found keep their numbers. -/
theorem getElem?_expand_of_some {next : κ → List (Nat × κ)} {i : Nat} {x : κ} (bound : Nat) :
    ∀ {d : Discovery κ}, d.keys[i]? = some x → (expand next bound d).keys[i]? = some x := by
  induction bound with
  | zero => intro d h; exact h
  | succ bound ih =>
    intro d h
    rw [expand_succ]
    split
    · exact h
    · exact ih (getElem?_internAll_of_some _ h)

/-! ## 2. Only what the starts lead to -/

/-- A property that the edges carry on holds of all keys if it holds of the first ones. -/
theorem forall_mem_expand {next : κ → List (Nat × κ)} {P : κ → Prop}
    (hnext : ∀ k, P k → ∀ e ∈ next k, P e.2) (bound : Nat) : ∀ {d : Discovery κ},
    (∀ k ∈ d.keys, P k) → ∀ k ∈ (expand next bound d).keys, P k := by
  induction bound with
  | zero => intro d h; exact h
  | succ bound ih =>
    intro d h
    rw [expand_succ]
    split
    · exact h
    · rename_i k hk
      refine ih fun x hx => ?_
      rcases (mem_internAll _).mp hx with hx | hx
      · exact h x hx
      · obtain ⟨e, he, rfl⟩ := List.mem_map.mp hx
        exact hnext k (h k (Array.mem_of_getElem? hk)) e he

/-! ## 3. Everything that the starts lead to -/

/-- A discovery ends, or it has expanded as many keys as it was allowed to. -/
theorem size_rows_expand (next : κ → List (Nat × κ)) (bound : Nat) : ∀ {d : Discovery κ},
    d.rows.size ≤ d.keys.size → (expand next bound d).keys.size ≤ (expand next bound d).rows.size
      ∨ (expand next bound d).rows.size = d.rows.size + bound := by
  induction bound with
  | zero => intro d _; exact Or.inr rfl
  | succ bound ih =>
    intro d h
    rw [expand_succ]
    split
    · rename_i hnone
      exact Or.inl (Array.getElem?_eq_none_iff.mp hnone)
    · rename_i k hk
      have hlt := (Array.getElem?_eq_some_iff.mp hk).1
      have hle := size_le_size_internAll ((next k).map (·.2)) d.keys
      have hgrow : (d.grow next k).rows.size = d.rows.size + 1 := by
        simp [Discovery.grow]
      rcases ih (d := d.grow next k) (by rw [hgrow]; simp only [Discovery.grow]; omega)
        with hdone | hfull
      · exact Or.inl hdone
      · rw [hgrow] at hfull
        exact Or.inr (by omega)

/-- Different keys from a finite set are at most as many as its elements. -/
theorem size_le_card {keys : Array κ} (h : keys.toList.Nodup) {s : Finset κ}
    (hs : ∀ k ∈ keys, k ∈ s) : keys.size ≤ s.card := by
  have hcard : keys.toList.toFinset.card = keys.size := by
    rw [List.toFinset_card_of_nodup h, Array.length_toList]
  rw [← hcard]
  refine Finset.card_le_card fun k hk => ?_
  exact hs k (Array.mem_toList_iff.mp (List.mem_toFinset.mp hk))

/-- What `explore` finds. -/
structure Explores (next : κ → List (Nat × κ)) (starts : List κ) (numbers : List Nat)
    (d : Discovery κ) : Prop where
  nodup : d.keys.toList.Nodup
  starts_eq : numbers.map (fun n => d.keys[n]?) = starts.map some
  size_rows : d.rows.size = d.keys.size
  row : ∀ {i : Nat} {k : κ} {row : List (Nat × Nat)}, d.keys[i]? = some k →
    d.rows[i]? = some row → RowOf next d.keys k row
  /-- Only keys that the starts lead to are found. -/
  found : ∀ {P : κ → Prop}, (∀ k ∈ starts, P k) → (∀ k, P k → ∀ e ∈ next k, P e.2) →
    ∀ k ∈ d.keys, P k

/-- **Exploration is complete within a large enough bound.**  `P` describes the keys that can
occur, and `s` holds them all. -/
theorem explores {next : κ → List (Nat × κ)} {starts : List κ} {bound : Nat} {P : κ → Prop}
    (hstarts : ∀ k ∈ starts, P k) (hnext : ∀ k, P k → ∀ e ∈ next k, P e.2) {s : Finset κ}
    (hs : ∀ k, P k → k ∈ s) (hbound : s.card ≤ bound) :
    Explores next starts (explore bound next starts).1 (explore bound next starts).2 := by
  have hmem : ∀ {k}, k ∈ (internAll #[] starts).2 → k ∈ starts := by
    intro k hk
    rcases (mem_internAll starts).mp hk with hk | hk
    · exact absurd hk (by simp)
    · exact hk
  have hfound : Found next ⟨(internAll #[] starts).2, #[]⟩ :=
    ⟨nodup_internAll starts (by simp), by simp, by intro i k row _ hrow; simp at hrow⟩
  have hend : Found next (explore bound next starts).2 := hfound.expand bound
  have hP : ∀ k ∈ (explore bound next starts).2.keys, P k :=
    forall_mem_expand hnext bound fun k hk => hstarts k (hmem hk)
  refine ⟨hend.nodup, ?_, ?_, hend.row, ?_⟩
  · have hnum := map_getElem?_internAll starts (#[] : Array κ)
    rw [← hnum]
    refine List.map_congr_left fun n hn => ?_
    have hsome : (internAll #[] starts).2[n]? ∈ starts.map some := by
      rw [← hnum]
      exact List.mem_map.mpr ⟨n, hn, rfl⟩
    obtain ⟨k, -, hk⟩ := List.mem_map.mp hsome
    rw [← hk]
    exact getElem?_expand_of_some bound hk.symm
  · have hle := hend.rows_le
    have hcard := size_le_card hend.nodup fun k hk => hs k (hP k hk)
    rcases size_rows_expand next bound hfound.rows_le with h | h
    · exact Nat.le_antisymm hle h
    · have hrows : (explore bound next starts).2.rows.size = bound :=
        h.trans (Nat.zero_add bound)
      omega
  · intro Q hQstarts hQnext
    exact forall_mem_expand hQnext bound fun k hk => hQstarts k (hmem hk)

/-! ## 4. Numbered edges -/

namespace Explores

variable {next : κ → List (Nat × κ)} {starts : List κ} {numbers : List Nat} {d : Discovery κ}

omit [DecidableEq κ] in
/-- Every key has a row. -/
theorem exists_row (h : Explores next starts numbers d) {i : Nat} {k : κ}
    (hk : d.keys[i]? = some k) : ∃ row, d.rows[i]? = some row ∧ RowOf next d.keys k row := by
  have hlt := (Array.getElem?_eq_some_iff.mp hk).1
  rw [← h.size_rows] at hlt
  have hrow : d.rows[i]? = some d.rows[i] := Array.getElem?_eq_getElem hlt
  exact ⟨d.rows[i], hrow, h.row hk hrow⟩

omit [DecidableEq κ] in
/-- The keys are closed under edges. -/
theorem mem_of_next (h : Explores next starts numbers d) {k : κ} (hk : k ∈ d.keys)
    {e : Nat × κ} (he : e ∈ next k) : e.2 ∈ d.keys := by
  obtain ⟨i, hi, rfl⟩ := Array.mem_iff_getElem.mp hk
  obtain ⟨row, -, hrow⟩ := h.exists_row (Array.getElem?_eq_getElem hi)
  have hmem : (e.1, some e.2) ∈ row.map fun e => (e.1, d.keys[e.2]?) := by
    rw [hrow]
    exact List.mem_map.mpr ⟨e, he, rfl⟩
  obtain ⟨f, -, hf⟩ := List.mem_map.mp hmem
  exact Array.mem_of_getElem? (congrArg Prod.snd hf)

omit [DecidableEq κ] in
theorem mem_of_start (h : Explores next starts numbers d) {k : κ} (hk : k ∈ starts) :
    k ∈ d.keys := by
  have hmem : some k ∈ numbers.map fun n => d.keys[n]? := by
    rw [h.starts_eq]
    exact List.mem_map.mpr ⟨k, hk, rfl⟩
  obtain ⟨n, -, hn⟩ := List.mem_map.mp hmem
  exact Array.mem_of_getElem? hn

end Explores

/-! ## 5. Counting ordered lists -/

/-- The ordered lists over a finite set. -/
theorem exists_finset_of_ordered {before : κ → κ → Bool} (h : Ranks before) (s : Finset κ) :
    ∃ t : Finset (List κ), t.card ≤ 2 ^ s.card ∧
      ∀ l : List κ, l.Pairwise (before · · = true) → (∀ a ∈ l, a ∈ s) → l ∈ t := by
  classical
  refine ⟨s.powerset.image fun u => sortBy before u.toList, ?_, ?_⟩
  · exact Finset.card_image_le.trans (Finset.card_powerset s).le
  · intro l hl hs
    refine Finset.mem_image.mpr ⟨l.toFinset, ?_, ?_⟩
    · refine Finset.mem_powerset.mpr fun a ha => ?_
      exact hs a (List.mem_toFinset.mp ha)
    · refine h.ext (h.pairwise_sortBy _) hl fun a => ?_
      rw [h.mem_sortBy, Finset.mem_toList, List.mem_toFinset]

/-! ## 6. Larger bounds -/

/-- When all keys are expanded, nothing is left to do. -/
theorem expand_of_done {next : κ → List (Nat × κ)} {d : Discovery κ}
    (h : d.keys.size ≤ d.rows.size) (bound : Nat) : expand next bound d = d := by
  cases bound with
  | zero => rfl
  | succ bound => rw [expand_succ, Array.getElem?_eq_none h]

theorem expand_add (next : κ → List (Nat × κ)) (bound more : Nat) : ∀ d : Discovery κ,
    expand next (bound + more) d = expand next more (expand next bound d) := by
  induction bound with
  | zero =>
    intro d
    rw [Nat.zero_add]
    rfl
  | succ bound ih =>
    intro d
    rw [Nat.succ_add, expand_succ, expand_succ]
    split
    · rename_i hnone
      rw [expand_of_done (Array.getElem?_eq_none_iff.mp hnone)]
    · exact ih _

/-- A larger bound finds the same, once everything is found. -/
theorem Explores.explore_of_le {next : κ → List (Nat × κ)} {starts : List κ} {bound bound' : Nat}
    (h : Explores next starts (explore bound next starts).1 (explore bound next starts).2)
    (hle : bound ≤ bound') : explore bound' next starts = explore bound next starts := by
  obtain ⟨more, rfl⟩ := Nat.exists_eq_add_of_le hle
  have hdone : expand next (bound + more) ⟨(internAll #[] starts).2, #[]⟩
      = expand next bound ⟨(internAll #[] starts).2, #[]⟩ := by
    rw [expand_add]
    exact expand_of_done h.size_rows.ge more
  exact congrArg (Prod.mk (internAll #[] starts).1) hdone

/-! ## 7. Runs -/

/-- The first key that was not expanded yet is expanded. -/
inductive Discovery.Expands (next : κ → List (Nat × κ)) (d : Discovery κ) : Discovery κ → Prop
  | next {k : κ} : d.keys[d.rows.size]? = some k → Expands next d (d.grow next k)

/-- **An exploration ends**: from the starts, expanding one key after the other leads to a discovery
in which no key is left to expand. -/
def RunsTo (next : κ → List (Nat × κ)) (starts : List κ) (d : Discovery κ) : Prop :=
  Relation.ReflTransGen (Discovery.Expands next) ⟨(internAll #[] starts).2, #[]⟩ d ∧
    ∀ d', ¬ d.Expands next d'

/-- A bounded exploration takes such steps. -/
theorem expands_expand (next : κ → List (Nat × κ)) (bound : Nat) : ∀ d : Discovery κ,
    Relation.ReflTransGen (Discovery.Expands next) d (expand next bound d) := by
  induction bound with
  | zero => exact fun d => .refl
  | succ bound ih =>
    intro d
    rw [expand_succ]
    split
    · exact .refl
    · rename_i k hk
      exact .head (.next hk) (ih _)

/-- What was explored to the end is what the run leads to. -/
theorem Explores.runsTo {next : κ → List (Nat × κ)} {starts : List κ} {bound : Nat}
    (h : Explores next starts (explore bound next starts).1 (explore bound next starts).2) :
    RunsTo next starts (explore bound next starts).2 := by
  refine ⟨expands_expand next bound _, fun d' hd' => ?_⟩
  cases hd' with
  | next hk =>
    rw [h.size_rows, Array.getElem?_eq_none (Nat.le_refl _)] at hk
    cases hk

/-! ## 8. Keys under other names -/

variable {κ' : Type} [DecidableEq κ'] [BEq κ] [LawfulBEq κ] [BEq κ'] [LawfulBEq κ']

theorem keys_expand_map {next : κ → List (Nat × κ)} {next' : κ' → List (Nat × κ')} {f : κ → κ'}
    (hf : Function.Injective f)
    (hnext : ∀ k, ((next' (f k)).map (·.2)).eraseDups = (((next k).map (·.2)).map f).eraseDups)
    (bound : Nat) : ∀ {d : Discovery κ} {d' : Discovery κ'}, d.keys.toList.Nodup →
      d'.keys = d.keys.map f → d'.rows.size = d.rows.size →
      (expand next' bound d').keys = (expand next bound d).keys.map f := by
  induction bound with
  | zero => exact fun _ hkeys _ => hkeys
  | succ bound ih =>
    intro d d' hnodup hkeys hrows
    rw [expand_succ, expand_succ, hrows, hkeys, Array.getElem?_map]
    cases hk : d.keys[d.rows.size]? with
    | none => exact hkeys
    | some k =>
      refine ih (nodup_internAll _ hnodup) ?_ ?_
      · have hnodup' : d'.keys.toList.Nodup := by
          rw [hkeys, Array.toList_map]
          exact hnodup.map hf
        apply Array.toList_inj.mp
        calc (internAll d'.keys ((next' (f k)).map (·.2))).2.toList
            = (d'.keys.toList ++ (next' (f k)).map (·.2)).eraseDups := toList_internAll _ hnodup'
          _ = (d.keys.toList.map f ++ ((next k).map (·.2)).map f).eraseDups := by
              rw [hkeys, Array.toList_map]
              exact eraseDups_append_congr rfl (hnext k)
          _ = (d.keys.toList ++ (next k).map (·.2)).eraseDups.map f := by
              rw [← List.map_append, eraseDups_map_of_injective hf]
          _ = ((internAll d.keys ((next k).map (·.2))).2.map f).toList := by
              rw [← toList_internAll _ hnodup, Array.toList_map]
      · simp [Discovery.grow, hrows]

/-- **Keys are found in the same order under other names**, if the targets of each key first occur in
the same order. -/
theorem explore_map {next : κ → List (Nat × κ)} {next' : κ' → List (Nat × κ')} {f : κ → κ'}
    (hf : Function.Injective f)
    (hnext : ∀ k, ((next' (f k)).map (·.2)).eraseDups = (((next k).map (·.2)).map f).eraseDups)
    (bound : Nat) (starts : List κ) :
    (explore bound next' (starts.map f)).1 = (explore bound next starts).1 ∧
      (explore bound next' (starts.map f)).2.keys = (explore bound next starts).2.keys.map f := by
  have hstart := internAll_map hf starts #[]
  rw [Array.map_empty] at hstart
  have hnodup : (internAll #[] starts).2.toList.Nodup := nodup_internAll starts (by simp)
  exact ⟨congrArg Prod.fst hstart,
    keys_expand_map hf hnext bound hnodup (congrArg Prod.snd hstart) rfl⟩

end GrammarTables.Graph
