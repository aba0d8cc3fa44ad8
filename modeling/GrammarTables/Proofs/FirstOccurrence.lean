import Mathlib.Data.List.Nodup
import GrammarTables.Proofs.Numbering
/-
# First occurrences

Interning keeps of a list of keys only the first occurrence of each (`toList_internAll`), and
numbers the keys in that order (`eraseDups_internAll`).  So two lists with the same first
occurrences are interned alike, whatever is repeated later.  First occurrences pass through
everything that lists of keys are made by: appending, mapping and choosing.
-/

namespace GrammarTables

variable {α β κ : Type}

/-! ## 1. Lists without repetitions -/

section

variable [BEq α] [BEq β]

/-- Induction that meets each element at its first occurrence only. -/
theorem firstOccurrences_induction {motive : List α → Prop} (nil : motive [])
    (cons : ∀ a as, motive (as.filter fun b => !b == a) → motive (a :: as)) :
    ∀ xs, motive xs
  | [] => nil
  | a :: as => cons a as (firstOccurrences_induction nil cons (as.filter fun b => !b == a))
termination_by xs => xs.length
decreasing_by exact Nat.lt_succ_of_le (List.length_filter_le _ _)

variable [LawfulBEq α] [LawfulBEq β]

theorem nodup_eraseDups (xs : List α) : xs.eraseDups.Nodup := by
  induction xs using firstOccurrences_induction with
  | nil => simp
  | cons a as ih =>
    rw [List.eraseDups_cons]
    refine List.nodup_cons.mpr ⟨fun hmem => ?_, ih⟩
    simpa using List.mem_eraseDups.mp hmem

theorem eraseDups_of_nodup {xs : List α} (h : xs.Nodup) : xs.eraseDups = xs := by
  induction xs with
  | nil => simp
  | cons a as ih =>
    obtain ⟨ha, has⟩ := List.nodup_cons.mp h
    have hkeep : as.filter (fun b => !b == a) = as :=
      List.filter_eq_self.mpr fun b hb => by
        have hne : b ≠ a := fun hba => ha (hba ▸ hb)
        simpa using hne
    rw [List.eraseDups_cons, hkeep, ih has]

theorem eraseDups_filter (p : α → Bool) (xs : List α) :
    (xs.filter p).eraseDups = xs.eraseDups.filter p := by
  induction xs using firstOccurrences_induction with
  | nil => simp
  | cons a as ih =>
    rw [List.eraseDups_cons]
    by_cases ha : p a
    · rw [List.filter_cons_of_pos ha, List.filter_cons_of_pos ha, List.eraseDups_cons, ← ih,
        List.filter_comm]
    · -- what is equal to `a` is left out by `p` as well
      have hsame : (as.filter fun b => !b == a).filter p = as.filter p := by
        rw [List.filter_filter]
        refine List.filter_congr fun b _ => ?_
        by_cases hb : b = a
        · simp [hb, ha]
        · simp [hb]
      rw [List.filter_cons_of_neg ha, List.filter_cons_of_neg ha, ← ih, hsame]

/-- Lists are appended by their first occurrences. -/
theorem eraseDups_append_congr {xs xs' ys ys' : List α} (hx : xs.eraseDups = xs'.eraseDups)
    (hy : ys.eraseDups = ys'.eraseDups) : (xs ++ ys).eraseDups = (xs' ++ ys').eraseDups := by
  have hmem : ∀ a, xs.elem a = xs'.elem a := by
    intro a
    have h : a ∈ xs ↔ a ∈ xs' := by
      rw [← List.mem_eraseDups, hx, List.mem_eraseDups]
    simpa using h
  rw [List.eraseDups_append, List.eraseDups_append, hx, List.removeAll, List.removeAll,
    eraseDups_filter, eraseDups_filter, hy]
  simp only [hmem]

/-- An element that is there already changes nothing. -/
theorem eraseDups_append_cons_of_mem {xs ys : List α} {a : α} (h : a ∈ xs) :
    (xs ++ a :: ys).eraseDups = (xs ++ ys).eraseDups := by
  have hone : (xs ++ [a]).eraseDups = xs.eraseDups := by
    rw [List.eraseDups_append]
    simp [List.removeAll, h]
  rw [show xs ++ a :: ys = (xs ++ [a]) ++ ys by simp]
  exact eraseDups_append_congr hone rfl

/-- **What is chosen from a list first is chosen from its first occurrences.** -/
theorem eraseDups_filterMap (f : α → Option β) (xs : List α) :
    (xs.filterMap f).eraseDups = (xs.eraseDups.filterMap f).eraseDups := by
  induction xs using firstOccurrences_induction with
  | nil => simp
  | cons a as ih =>
    rw [List.eraseDups_cons]
    cases ha : f a with
    | none =>
      have hsame : (as.filter fun b => !b == a).filterMap f = as.filterMap f := by
        rw [List.filterMap_filter]
        refine List.filterMap_congr fun b _ => ?_
        by_cases hb : b = a
        · simp [hb, ha]
        · simp [hb]
      rw [List.filterMap_cons_none ha, List.filterMap_cons_none ha, ← ih, hsame]
    | some y =>
      -- the elements equal to `a` give `y` again
      have hsame : ((as.filter fun b => !b == a).filterMap f).filter (fun z => !z == y)
          = (as.filterMap f).filter fun z => !z == y := by
        rw [List.filterMap_filter, List.filter_filterMap, List.filter_filterMap]
        refine List.filterMap_congr fun b _ => ?_
        by_cases hb : b = a
        · simp [hb, ha, Option.filter_some]
        · simp [hb]
      rw [List.filterMap_cons_some ha, List.filterMap_cons_some ha, List.eraseDups_cons,
        List.eraseDups_cons, eraseDups_filter, eraseDups_filter, ← ih, ← eraseDups_filter,
        ← eraseDups_filter, hsame]

theorem eraseDups_map (f : α → β) (xs : List α) :
    (xs.map f).eraseDups = (xs.eraseDups.map f).eraseDups := by
  have h := eraseDups_filterMap (fun a => some (f a)) xs
  rwa [List.filterMap_eq_map'] at h

theorem eraseDups_map_of_injective {f : α → β} (hf : Function.Injective f) (xs : List α) :
    (xs.map f).eraseDups = xs.eraseDups.map f := by
  rw [eraseDups_map, eraseDups_of_nodup ((nodup_eraseDups xs).map hf)]

theorem eraseDups_flatMap_congr {f g : κ → List α} (xs : List κ)
    (h : ∀ x ∈ xs, (f x).eraseDups = (g x).eraseDups) :
    (xs.flatMap f).eraseDups = (xs.flatMap g).eraseDups := by
  induction xs with
  | nil => rfl
  | cons x xs ih =>
    rw [List.flatMap_cons, List.flatMap_cons]
    exact eraseDups_append_congr (h x (by simp)) (ih fun y hy => h y (by simp [hy]))

end

/-! ## 2. Interning -/

variable [DecidableEq κ]

/-- What interning one key does, by whether the key is there. -/
theorem intern_cases (keys : Array κ) (k : κ) :
    (k ∈ keys ∧ (intern keys k).1 < keys.size ∧ (intern keys k).2 = keys) ∨
      (k ∉ keys ∧ intern keys k = (keys.size, keys.push k)) := by
  unfold intern
  split
  · rename_i i hi
    obtain ⟨hlt, hk, -⟩ := Array.findIdx?_eq_some_iff_getElem.mp hi
    simp only [decide_eq_true_eq] at hk
    exact Or.inl ⟨hk ▸ Array.getElem_mem hlt, hlt, rfl⟩
  · rename_i hnone
    have hk : ∀ x ∈ keys, x ≠ k := by simpa [Array.findIdx?_eq_none_iff] using hnone
    exact Or.inr ⟨fun hmem => hk k hmem rfl, rfl⟩

/-- Keys that are renamed one to one are interned alike. -/
theorem internAll_map [DecidableEq α] {f : κ → α} (hf : Function.Injective f) (ks : List κ) :
    ∀ (keys : Array κ), internAll (keys.map f) (ks.map f)
      = ((internAll keys ks).1, (internAll keys ks).2.map f) := by
  have hone : ∀ (keys : Array κ) (k : κ),
      intern (keys.map f) (f k) = ((intern keys k).1, (intern keys k).2.map f) := by
    intro keys k
    have hfind : (keys.map f).findIdx? (fun x => decide (x = f k))
        = keys.findIdx? fun x => decide (x = k) := by
      rw [Array.findIdx?_map]
      congr 1
      funext x
      simp [hf.eq_iff]
    unfold intern
    rw [hfind]
    cases keys.findIdx? fun x => decide (x = k) with
    | none => simp
    | some i => rfl
  induction ks with
  | nil => exact fun keys => rfl
  | cons k ks ih =>
    intro keys
    rw [List.map_cons, internAll_cons, internAll_cons, hone, ih]

/-- **Keys are numbered in the order of their first occurrences.** -/
theorem eraseDups_internAll (ks : List κ) : ∀ (keys : Array κ),
    (List.range keys.size ++ (internAll keys ks).1).eraseDups
      = List.range (internAll keys ks).2.size := by
  induction ks with
  | nil =>
    intro keys
    rw [internAll_nil, List.append_nil, eraseDups_of_nodup List.nodup_range]
  | cons k ks ih =>
    intro keys
    rw [internAll_cons]
    rcases intern_cases keys k with ⟨-, hlt, hkeys⟩ | ⟨-, hnew⟩
    · rw [eraseDups_append_cons_of_mem (List.mem_range.mpr hlt), hkeys, ih]
    · have h := ih (keys.push k)
      rw [Array.size_push, List.range_succ, List.append_assoc, List.singleton_append] at h
      rw [hnew, h]

variable [BEq κ] [LawfulBEq κ]

/-- **Interning adds the first occurrence of each new key.** -/
theorem toList_internAll (ks : List κ) : ∀ {keys : Array κ}, keys.toList.Nodup →
    (internAll keys ks).2.toList = (keys.toList ++ ks).eraseDups := by
  induction ks with
  | nil =>
    intro keys h
    rw [internAll_nil, List.append_nil, eraseDups_of_nodup h]
  | cons k ks ih =>
    intro keys h
    rw [internAll_cons, ih (nodup_intern k h)]
    rcases intern_cases keys k with ⟨hmem, -, hkeys⟩ | ⟨-, hnew⟩
    · rw [hkeys, eraseDups_append_cons_of_mem (Array.mem_toList_iff.mpr hmem)]
    · rw [hnew, Array.toList_push, List.append_assoc, List.singleton_append]

/-- The number of a key is its place among the keys. -/
theorem internAll_fst (ks : List κ) {keys : Array κ} (h : keys.toList.Nodup) :
    (internAll keys ks).1 = ks.map (internAll keys ks).2.toList.idxOf := by
  refine List.ext_getElem? fun i => ?_
  rw [List.getElem?_map]
  cases hk : ks[i]? with
  | none =>
    rw [List.getElem?_eq_none_iff] at hk
    rw [Option.map_none, List.getElem?_eq_none_iff, length_internAll]
    exact hk
  | some k =>
    obtain ⟨n, hn, hkey⟩ := @getElem?_internAll _ _ keys _ _ _ hk
    have hnodup := nodup_internAll ks h
    rw [← Array.getElem?_toList] at hkey
    obtain ⟨hlt, rfl⟩ := List.getElem?_eq_some_iff.mp hkey
    rw [hn, Option.map_some, hnodup.idxOf_getElem]

end GrammarTables
