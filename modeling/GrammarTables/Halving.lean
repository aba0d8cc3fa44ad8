/-
# Looking up by halving

Where the elements that satisfy a predicate come first, halving the list finds how many they are
(`partitionPoint_eq`).  Where the elements of a list stand in order around the one that is looked
for (`SidesOf`), halving finds it (`bisectBy_of_mem`), and finds nothing else (`mem_of_bisectBy`).
-/

namespace GrammarTables

variable {α : Type} {p : α → Bool} {side : α → Ordering} {l : List α} {a : α}
  {base size i n : Nat}

/-! ## 1. The elements that come first -/

/-- Halves the elements from `base` on, `size` of them, until one is left.  The number of elements
that satisfy `p` is the place of that one, or the place after it if it satisfies `p`. -/
def partitionPoint (p : α → Bool) (l : List α) (base size : Nat) : Nat :=
  if 1 < size then
    let mid := base + size / 2
    if l[mid]?.any p then partitionPoint p l mid (size - size / 2)
    else partitionPoint p l base (size - size / 2)
  else if l[base]?.any p then base + 1 else base
termination_by size
decreasing_by all_goals omega

/-- **Halving finds how many elements come first**, if their number is still in question. -/
theorem partitionPoint_eq (h : ∀ i, l[i]?.any p = true ↔ i < n) (hbase : base ≤ n)
    (hsize : n ≤ base + size) : partitionPoint p l base size = n := by
  fun_induction partitionPoint p l base size with
  | case1 base size hmore mid hfirst ih =>
    have := (h mid).mp hfirst
    exact ih (by omega) (by omega)
  | case2 base size hmore mid hlater ih =>
    have := mt (h mid).mpr hlater
    exact ih hbase (by omega)
  | case3 base size hmore hfirst =>
    have := (h base).mp hfirst
    omega
  | case4 base size hmore hlater =>
    have := mt (h base).mpr hlater
    omega

/-! ## 2. One element -/

/-- Halves the elements from `base` on, `size` of them, until one is left, which has to be the one
that is looked for.  `side` tells on which side of that one an element lies. -/
def bisectBy (side : α → Ordering) (l : List α) (base size : Nat) : Option α :=
  if 1 < size then
    let mid := base + size / 2
    if l[mid]?.any fun a => side a = .gt then bisectBy side l base (size - size / 2)
    else bisectBy side l mid (size - size / 2)
  else l[base]?.filter fun a => side a = .eq
termination_by size
decreasing_by all_goals omega

/-- What lies before the element that is looked for is on its lower side, what lies after it on its
upper side. -/
def SidesOf (side : α → Ordering) (l : List α) : Prop :=
  l.Pairwise fun a b => (side b = .eq → side a = .lt) ∧ (side a = .eq → side b = .gt)

/-- What halving finds is in the list. -/
theorem mem_of_bisectBy (h : bisectBy side l base size = some a) : a ∈ l ∧ side a = .eq := by
  fun_induction bisectBy side l base size with
  | case1 base size hsize mid hafter ih | case2 base size hsize mid hafter ih => exact ih h
  | case3 base size hsize =>
    obtain ⟨ha, hside⟩ := Option.filter_eq_some_iff.mp h
    exact ⟨List.mem_of_getElem? ha, by simpa using hside⟩

/-- **Halving finds the element that is looked for**, among those that are left. -/
theorem bisectBy_eq_some (hsides : SidesOf side l) (hi : l[i]? = some a) (ha : side a = .eq)
    (hbase : base ≤ i) (hlt : i < base + size) (hsize : base + size ≤ l.length) :
    bisectBy side l base size = some a := by
  obtain ⟨hilt, rfl⟩ := List.getElem?_eq_some_iff.mp hi
  have hpairs := List.pairwise_iff_getElem.mp hsides
  fun_induction bisectBy side l base size with
  | case1 base size hmore mid hafter ih =>
    have hmid : mid < l.length := by omega
    have hgt : side l[mid] = .gt := by simpa [List.getElem?_eq_getElem hmid] using hafter
    have hside : i < mid := by
      refine Nat.lt_of_not_le fun hge => ?_
      rcases Nat.lt_or_eq_of_le hge with hbefore | rfl
      · simp [(hpairs mid i hmid hilt hbefore).1 ha] at hgt
      · simp [ha] at hgt
    exact ih hbase (by omega) (by omega)
  | case2 base size hmore mid hafter ih =>
    have hmid : mid < l.length := by omega
    have hgt : side l[mid] ≠ .gt := by simpa [List.getElem?_eq_getElem hmid] using hafter
    have hside : mid ≤ i := by
      refine Nat.le_of_not_lt fun hbefore => ?_
      exact hgt ((hpairs i mid hilt hmid hbefore).2 ha)
    exact ih hside (by omega) (by omega)
  | case3 base size hmore =>
    obtain rfl : i = base := by omega
    simp [hi, ha]

/-- Halving the whole list finds whatever is in it. -/
theorem bisectBy_of_mem (hsides : SidesOf side l) (hmem : a ∈ l) (ha : side a = .eq) :
    bisectBy side l 0 l.length = some a := by
  obtain ⟨i, hi⟩ := List.mem_iff_getElem?.mp hmem
  have hlt := (List.getElem?_eq_some_iff.mp hi).1
  exact bisectBy_eq_some hsides hi ha (Nat.zero_le i) (by omega) (by omega)

end GrammarTables
