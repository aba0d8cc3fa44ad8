import GrammarTables.Interning
/-
# Numbering by first occurrence: what the numbers mean

Interning never moves a key that is there, keeps the keys different, and gives each key a number
under which it is found again.
-/

namespace GrammarTables

variable {κ : Type} [DecidableEq κ]

/-! ## 1. One key -/

/-- The number of a key finds the key. -/
theorem getElem?_intern (keys : Array κ) (k : κ) :
    (intern keys k).2[(intern keys k).1]? = some k := by
  unfold intern
  split
  · rename_i i hi
    obtain ⟨hlt, hk, -⟩ := Array.findIdx?_eq_some_iff_getElem.mp hi
    simp only [decide_eq_true_eq] at hk
    simp [hlt, hk]
  · simp

/-- Keys that are there keep their numbers. -/
theorem getElem?_intern_of_some {keys : Array κ} {i : Nat} {x : κ} (k : κ)
    (h : keys[i]? = some x) : (intern keys k).2[i]? = some x := by
  unfold intern
  split
  · exact h
  · obtain ⟨hlt, -⟩ := Array.getElem?_eq_some_iff.mp h
    rw [Array.getElem?_push_lt hlt]
    exact Array.getElem?_eq_some_iff.mp h |>.2 |> congrArg some

theorem mem_intern {keys : Array κ} {k x : κ} : x ∈ (intern keys k).2 ↔ x ∈ keys ∨ x = k := by
  unfold intern
  split
  · rename_i i hi
    obtain ⟨hlt, hk, -⟩ := Array.findIdx?_eq_some_iff_getElem.mp hi
    simp only [decide_eq_true_eq] at hk
    constructor
    · exact Or.inl
    · rintro (h | rfl)
      · exact h
      · exact hk ▸ Array.getElem_mem hlt
  · simp

theorem nodup_intern {keys : Array κ} (k : κ) (h : keys.toList.Nodup) :
    (intern keys k).2.toList.Nodup := by
  unfold intern
  split
  · exact h
  · rename_i hnone
    have hk : ∀ x ∈ keys, x ≠ k := by simpa [Array.findIdx?_eq_none_iff] using hnone
    simp only [Array.toList_push]
    refine List.nodup_append.mpr ⟨h, by simp, ?_⟩
    intro a ha b hb
    rw [List.mem_singleton.mp hb]
    exact hk a (Array.mem_toList_iff.mp ha)

/-! ## 2. A list of keys -/

/-- The fold of `internAll`, from numbers that were found before. -/
theorem foldl_intern (ks : List κ) : ∀ (numbers : Array Nat) (keys : Array κ),
    ks.foldl (fun (numbers, keys) k =>
      let (i, keys) := intern keys k
      (numbers.push i, keys)) (numbers, keys)
    = (numbers ++ (internAll keys ks).1.toArray, (internAll keys ks).2) := by
  induction ks with
  | nil => intro numbers keys; simp [internAll]
  | cons k rest ih =>
    intro numbers keys
    simp only [internAll, List.foldl_cons]
    rw [ih, ih]
    simp

theorem internAll_nil (keys : Array κ) : internAll keys [] = ([], keys) := rfl

theorem internAll_cons (keys : Array κ) (k : κ) (ks : List κ) :
    internAll keys (k :: ks) = ((intern keys k).1 :: (internAll (intern keys k).2 ks).1,
      (internAll (intern keys k).2 ks).2) := by
  have h := foldl_intern ks #[(intern keys k).1] (intern keys k).2
  simp only [internAll, List.foldl_cons] at h ⊢
  rw [show (#[] : Array Nat).push (intern keys k).1 = #[(intern keys k).1] from rfl, h]
  simp

theorem getElem?_internAll_of_some {i : Nat} {x : κ} (ks : List κ) : ∀ {keys : Array κ},
    keys[i]? = some x → (internAll keys ks).2[i]? = some x := by
  induction ks with
  | nil => intro keys h; exact h
  | cons k rest ih =>
    intro keys h
    rw [internAll_cons]
    exact ih (getElem?_intern_of_some k h)

/-- **The numbers of a list of keys find the keys.** -/
theorem map_getElem?_internAll (ks : List κ) : ∀ (keys : Array κ),
    (internAll keys ks).1.map (fun n => (internAll keys ks).2[n]?) = ks.map some := by
  induction ks with
  | nil => intro keys; rfl
  | cons k rest ih =>
    intro keys
    rw [internAll_cons]
    simp only [List.map_cons]
    rw [ih, getElem?_internAll_of_some rest (getElem?_intern keys k)]

theorem length_internAll (keys : Array κ) (ks : List κ) :
    (internAll keys ks).1.length = ks.length := by
  have h := congrArg List.length (map_getElem?_internAll ks keys)
  simpa using h

theorem mem_internAll {x : κ} (ks : List κ) : ∀ {keys : Array κ},
    x ∈ (internAll keys ks).2 ↔ x ∈ keys ∨ x ∈ ks := by
  induction ks with
  | nil => intro keys; simp [internAll_nil]
  | cons k rest ih =>
    intro keys
    rw [internAll_cons]
    simp only [ih, mem_intern, List.mem_cons, or_assoc]

theorem nodup_internAll (ks : List κ) : ∀ {keys : Array κ},
    keys.toList.Nodup → (internAll keys ks).2.toList.Nodup := by
  induction ks with
  | nil => intro keys h; exact h
  | cons k rest ih =>
    intro keys h
    rw [internAll_cons]
    exact ih (nodup_intern k h)

theorem size_le_size_internAll (ks : List κ) : ∀ (keys : Array κ),
    keys.size ≤ (internAll keys ks).2.size := by
  induction ks with
  | nil => intro keys; exact Nat.le_refl _
  | cons k rest ih =>
    intro keys
    rw [internAll_cons]
    exact Nat.le_trans (size_le_size_intern keys k) (ih _)

/-- The number of one of the keys. -/
theorem getElem?_internAll {keys : Array κ} {ks : List κ} {i : Nat} {k : κ}
    (h : ks[i]? = some k) :
    ∃ n, (internAll keys ks).1[i]? = some n ∧ (internAll keys ks).2[n]? = some k := by
  have hmap := congrArg (fun l => l[i]?) (map_getElem?_internAll ks keys)
  simp only [List.getElem?_map, h, Option.map_some] at hmap
  obtain ⟨n, hn, hk⟩ := Option.map_eq_some_iff.mp hmap
  exact ⟨n, hn, hk⟩

omit [DecidableEq κ] in
/-- Different places of an array without repetitions hold different keys. -/
theorem eq_of_getElem?_eq {keys : Array κ} (h : keys.toList.Nodup) {i j : Nat} {k : κ}
    (hi : keys[i]? = some k) (hj : keys[j]? = some k) : i = j := by
  rw [← Array.getElem?_toList] at hi hj
  obtain ⟨hlt, -⟩ := List.getElem?_eq_some_iff.mp hi
  exact (List.getElem?_inj hlt h).mp (hi.trans hj.symm)

end GrammarTables
