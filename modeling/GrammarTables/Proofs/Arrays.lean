import Mathlib.Algebra.GroupWithZero.Nat
import Mathlib.Tactic.ByContra
/-
# Arrays that are filled step by step

Tables are built by folds over lists that add to an array under computed indices.  What stands
under an index in the end is said once for each kind of fold, so that no later proof runs through
one.
-/

namespace GrammarTables

variable {α β : Type}

/-- What stands under an index after something was put under one. -/
theorem getD_setIfInBounds {row : Array β} {i j : Nat} {b d : β} :
    (row.setIfInBounds i b).getD j d = if i = j ∧ i < row.size then b else row.getD j d := by
  rw [Array.getD_eq_getD_getElem?, Array.getD_eq_getD_getElem?, Array.getElem?_setIfInBounds]
  by_cases hij : i = j
  · subst hij
    by_cases hlt : i < row.size <;> simp [hlt]
  · simp [hij]

theorem getElem?_eq_some_getD {xs : Array α} {i : Nat} (h : i < xs.size) (d : α) :
    xs[i]? = some (xs.getD i d) := by
  rw [Array.getD_eq_getD_getElem?, Array.getElem?_eq_getElem h, Option.getD_some]

theorem getD_of_getElem? {xs : Array α} {i : Nat} {a : α} (h : xs[i]? = some a) (d : α) :
    xs.getD i d = a := by
  rw [Array.getD_eq_getD_getElem?, h, Option.getD_some]

/-! ## 1. Collecting lists -/

/-- A step brings `b` to the index `i` for the elements that satisfy `R`, and nothing else there
changes. -/
structure Collects (f : Array (List β) → α → Array (List β)) (i : Nat) (b : β) (R : α → Prop) :
    Prop where
  size : ∀ acc x, (f acc x).size = acc.size
  mem : ∀ acc x, b ∈ (f acc x).getD i [] ↔ b ∈ acc.getD i [] ∨ i < acc.size ∧ R x

/-- A whole list of steps is one step. -/
theorem Collects.foldl {f : Array (List β) → α → Array (List β)} {i : Nat} {b : β} {R : α → Prop}
    (h : Collects f i b R) : Collects (fun acc (xs : List α) => xs.foldl f acc) i b
      fun xs => ∃ x ∈ xs, R x := by
  constructor
  · intro acc xs
    induction xs generalizing acc with
    | nil => rfl
    | cons x xs ih => exact (ih _).trans (h.size acc x)
  · intro acc xs
    induction xs generalizing acc with
    | nil => simp
    | cons x xs ih =>
      rw [List.foldl_cons, ih, h.mem, h.size]
      simp only [List.mem_cons, exists_eq_or_imp]
      rw [or_assoc, ← and_or_left]

/-- Elements that bring a list to an index. -/
theorem collects_modify (index : α → Nat) (bring : α → List β) (i : Nat) (b : β) :
    Collects (fun acc x => acc.modify (index x) (bring x ++ ·)) i b
      fun x => index x = i ∧ b ∈ bring x := by
  refine ⟨fun acc x => Array.size_modify, fun acc x => ?_⟩
  rw [Array.getD_eq_getD_getElem?, Array.getD_eq_getD_getElem?, Array.getElem?_modify]
  by_cases hlt : i < acc.size
  · by_cases hi : index x = i
    · simp [hi, hlt, or_comm]
    · simp [hi]
  · simp [hlt]

/-- One value is added under an index, or none. -/
def gather (pick : α → Option (Nat × β)) (acc : Array (List β)) (x : α) : Array (List β) :=
  match pick x with
  | some (i, b) => acc.modify i (b :: ·)
  | none => acc

theorem collects_gather (pick : α → Option (Nat × β)) (i : Nat) (b : β) :
    Collects (gather pick) i b fun x => pick x = some (i, b) := by
  refine ⟨fun acc x => ?_, fun acc x => ?_⟩
  · unfold gather
    split <;> simp
  · unfold gather
    split
    · rename_i j c hx
      rw [Array.getD_eq_getD_getElem?, Array.getD_eq_getD_getElem?, Array.getElem?_modify, hx]
      by_cases hlt : i < acc.size
      · by_cases hj : j = i
        · simp [hj, hlt, or_comm, eq_comm]
        · simp [hj]
      · simp [hlt]
    · rename_i hx
      simp [hx]

/-- What stands in a row of an array stands in one that is there. -/
theorem lt_size_of_mem_getD {rows : Array (List β)} {i : Nat} {b : β} (h : b ∈ rows.getD i []) :
    i < rows.size := by
  by_contra hge
  have hnone : rows[i]? = none := Array.getElem?_eq_none (Nat.not_lt.mp hge)
  simp [Array.getD_eq_getD_getElem?, hnone] at h

theorem getD_replicate_nil (n i : Nat) : (Array.replicate n ([] : List β)).getD i [] = [] := by
  rw [Array.getD_eq_getD_getElem?, Array.getElem?_replicate]
  split <;> rfl

/-- What is collected in an array that was empty. -/
theorem Collects.mem_replicate {f : Array (List β) → α → Array (List β)} {i n : Nat} {b : β}
    {R : α → Prop} (h : Collects f i b R) {x : α} :
    b ∈ (f (Array.replicate n []) x).getD i [] ↔ i < n ∧ R x := by
  rw [h.mem, getD_replicate_nil, Array.size_replicate]
  simp

/-! ## 2. Putting single values -/

/-- One value is put under an index, or none. -/
def put (pick : α → Option (Nat × β)) (row : Array (Option β)) (x : α) :
    Array (Option β) :=
  match pick x with
  | some (i, b) => row.setIfInBounds i (some b)
  | none => row

theorem size_put (pick : α → Option (Nat × β)) (row : Array (Option β)) (x : α) :
    (put pick row x).size = row.size := by
  unfold put
  split <;> simp

theorem size_foldl_put (pick : α → Option (Nat × β)) (xs : List α) (row : Array (Option β)) :
    (xs.foldl (put pick) row).size = row.size := by
  induction xs generalizing row with
  | nil => rfl
  | cons x xs ih => exact (ih _).trans (size_put pick row x)

theorem getD_put {pick : α → Option (Nat × β)} {row : Array (Option β)} {x : α}
    {i : Nat} {b : β} : (put pick row x).getD i none = some b ↔
      (i < row.size ∧ pick x = some (i, b)) ∨
        (row.getD i none = some b ∧ ∀ c, pick x ≠ some (i, c)) := by
  unfold put
  split
  · rename_i j c hx
    rw [getD_setIfInBounds]
    by_cases hj : j = i
    · subst hj
      by_cases hlt : j < row.size <;> simp [hlt, hx]
    · simp [hj, hx]
  · rename_i hx
    simp [hx]

theorem of_getD_foldl_put {pick : α → Option (Nat × β)} {i : Nat} {b : β}
    (xs : List α) : ∀ {row : Array (Option β)}, (xs.foldl (put pick) row).getD i none = some b →
      row.getD i none = some b ∨ i < row.size ∧ ∃ x ∈ xs, pick x = some (i, b) := by
  induction xs with
  | nil => exact fun h => Or.inl h
  | cons x xs ih =>
    intro row h
    rcases ih h with h | ⟨hlt, y, hy, hpick⟩
    · rcases getD_put.mp h with ⟨hlt, hpick⟩ | ⟨h, -⟩
      · exact Or.inr ⟨hlt, x, by simp, hpick⟩
      · exact Or.inl h
    · rw [size_put] at hlt
      exact Or.inr ⟨hlt, y, by simp [hy], hpick⟩

theorem exists_getD_foldl_put {pick : α → Option (Nat × β)} {i : Nat} (xs : List α) :
    ∀ (row : Array (Option β)), ((∃ b, row.getD i none = some b) ∨
      i < row.size ∧ ∃ x ∈ xs, ∃ b, pick x = some (i, b)) →
      ∃ b, (xs.foldl (put pick) row).getD i none = some b := by
  induction xs with
  | nil => simp
  | cons x xs ih =>
    intro row h
    rw [List.foldl_cons]
    by_cases hx : i < row.size ∧ ∃ b, pick x = some (i, b)
    · obtain ⟨hlt, b, hpick⟩ := hx
      exact ih _ (Or.inl ⟨b, getD_put.mpr (Or.inl ⟨hlt, hpick⟩)⟩)
    · rcases h with ⟨b, hb⟩ | ⟨hlt, y, hy, b, hpick⟩
      · refine ih _ (Or.inl ⟨b, getD_put.mpr (Or.inr ⟨hb, fun c hc => hx ⟨?_, c, hc⟩⟩)⟩)
        by_contra hge
        simp [Array.getD_eq_getD_getElem?, Array.getElem?_eq_none (Nat.not_lt.mp hge)] at hb
      · rcases List.mem_cons.mp hy with rfl | hy
        · exact absurd ⟨hlt, b, hpick⟩ hx
        · exact ih _ (Or.inr ⟨by rwa [size_put], y, hy, b, hpick⟩)

/-- **What is put under an index** by a list that puts no two values there. -/
theorem getD_foldl_put {pick : α → Option (Nat × β)} {i n : Nat} {b : β} {xs : List α}
    (hfun : ∀ x ∈ xs, ∀ y ∈ xs, ∀ b c, pick x = some (i, b) → pick y = some (i, c) → b = c) :
    (xs.foldl (put pick) (Array.replicate n none)).getD i none = some b ↔
      i < n ∧ ∃ x ∈ xs, pick x = some (i, b) := by
  have hnone : ∀ c, (Array.replicate n (none : Option β)).getD i none ≠ some c := by
    intro c
    rw [Array.getD_eq_getD_getElem?, Array.getElem?_replicate]
    split <;> simp
  constructor
  · intro h
    rcases of_getD_foldl_put xs h with h | h
    · exact absurd h (hnone b)
    · simpa using h
  · rintro ⟨hlt, x, hx, hpick⟩
    obtain ⟨c, hc⟩ := exists_getD_foldl_put xs (Array.replicate n none)
      (Or.inr ⟨by simpa using hlt, x, hx, b, hpick⟩)
    rcases of_getD_foldl_put xs hc with h | ⟨-, y, hy, hpick'⟩
    · exact absurd h (hnone c)
    · rw [hc, hfun y hy x hx c b hpick' hpick]

/-- Values that are put under renamed indices are found under them. -/
theorem getD_foldl_put_rename {pick pick' : α → Option (Nat × β)} {f : Nat → Nat}
    (hf : Function.Injective f) (hpick : ∀ x, pick' x = (pick x).map fun v => (f v.1, v.2))
    (xs : List α) : ∀ {row row' : Array (Option β)}, (∀ i, i < row.size ↔ f i < row'.size) →
      (∀ i, row'.getD (f i) none = row.getD i none) →
      ∀ i, (xs.foldl (put pick') row').getD (f i) none = (xs.foldl (put pick) row).getD i none := by
  induction xs with
  | nil => exact fun _ hrow => hrow
  | cons x xs ih =>
    intro row row' hsize hrow
    refine ih (by simpa only [size_put] using hsize) fun i => ?_
    unfold put
    rw [hpick]
    cases pick x with
    | none => exact hrow i
    | some v =>
      simp only [Option.map_some, getD_setIfInBounds, hf.eq_iff, ← hsize]
      split
      · rfl
      · exact hrow i

/-! ## 3. Rows one after the other -/

theorem length_flatMap_of_length {f : α → List β} {n : Nat} (hf : ∀ a, (f a).length = n)
    (l : List α) : (l.flatMap f).length = l.length * n := by
  induction l with
  | nil => simp
  | cons a l ih => rw [List.flatMap_cons, List.length_append, hf, ih, List.length_cons, Nat.succ_mul,
      Nat.add_comm]

/-- Looking up an element of a table that is stored row by row. -/
theorem getElem?_flatMap_of_length {f : α → List β} {n : Nat}
    (hf : ∀ a, (f a).length = n) {j : Nat} (hj : j < n) : ∀ (l : List α) (i : Nat),
    (l.flatMap f)[i * n + j]? = l[i]?.bind fun a => (f a)[j]? := by
  intro l
  induction l with
  | nil => intro i; rfl
  | cons a rest ih =>
    intro i
    rw [List.flatMap_cons]
    cases i with
    | zero =>
      rw [Nat.zero_mul, Nat.zero_add, List.getElem?_append_left (by rw [hf]; exact hj)]
      rfl
    | succ i =>
      rw [List.getElem?_append_right (by rw [hf, Nat.succ_mul]; omega), hf,
        show (i + 1) * n + j - n = i * n + j by rw [Nat.succ_mul]; omega, ih i]
      rfl

/-! ## 4. Rows of different lengths -/

/-- Where the row of an index begins when rows of the given lengths are put one after the other. -/
def rowOffset (len : α → Nat) (rows : List α) (i : Nat) : Nat := ((rows.take i).map len).sum

theorem rowOffset_cons_succ (len : α → Nat) (a : α) (rows : List α) (i : Nat) :
    rowOffset len (a :: rows) (i + 1) = len a + rowOffset len rows i := by
  simp [rowOffset]

/-- Looking up an element by its row and its place in the row. -/
theorem getElem?_flatMap_rowOffset {len : α → Nat} {f : α → List β} (rows : List α)
    (hf : ∀ a ∈ rows, (f a).length = len a) {i j : Nat} {a : α} (hi : rows[i]? = some a)
    (hj : j < len a) : (rows.flatMap f)[rowOffset len rows i + j]? = (f a)[j]? := by
  induction rows generalizing i with
  | nil => simp at hi
  | cons b rest ih =>
    have hb := hf b (by simp)
    rw [List.flatMap_cons]
    cases i with
    | zero =>
      obtain rfl : b = a := by simpa using hi
      rw [show rowOffset len (b :: rest) 0 + j = j by simp [rowOffset],
        List.getElem?_append_left (by omega)]
    | succ i =>
      rw [rowOffset_cons_succ, List.getElem?_append_right (by omega), hb,
        show len b + rowOffset len rest i + j - len b = rowOffset len rest i + j by omega]
      exact ih (fun a ha => hf a (List.mem_cons_of_mem b ha)) (by simpa using hi)

theorem rowOffset_add_lt {len : α → Nat} (rows : List α) {i j : Nat} {a : α}
    (hi : rows[i]? = some a) (hj : j < len a) : rowOffset len rows i + j < (rows.map len).sum := by
  induction rows generalizing i with
  | nil => simp at hi
  | cons b rest ih =>
    rw [List.map_cons, List.sum_cons]
    cases i with
    | zero =>
      obtain rfl : b = a := by simpa using hi
      simp only [rowOffset, List.take_zero, List.map_nil, List.sum_nil]
      omega
    | succ i =>
      have := ih (i := i) (by simpa using hi)
      rw [rowOffset_cons_succ]
      omega

/-- A number stands for one row and one place in it. -/
theorem rowOffset_inj (len : α → Nat) (rows : List α) {i i' j j' : Nat} {a a' : α}
    (hi : rows[i]? = some a) (hi' : rows[i']? = some a') (hj : j < len a) (hj' : j' < len a')
    (h : rowOffset len rows i + j = rowOffset len rows i' + j') : i = i' ∧ j = j' := by
  induction rows generalizing i i' with
  | nil => simp at hi
  | cons b rest ih =>
    cases i with
    | zero =>
      obtain rfl : b = a := by simpa using hi
      cases i' with
      | zero =>
        refine ⟨rfl, ?_⟩
        omega
      | succ i' =>
        rw [rowOffset_cons_succ] at h
        simp only [rowOffset, List.take_zero, List.map_nil, List.sum_nil] at h
        omega
    | succ i =>
      cases i' with
      | zero =>
        obtain rfl : b = a' := by simpa using hi'
        rw [rowOffset_cons_succ] at h
        simp only [rowOffset, List.take_zero, List.map_nil, List.sum_nil] at h
        omega
      | succ i' =>
        rw [rowOffset_cons_succ, rowOffset_cons_succ] at h
        rw [List.getElem?_cons_succ] at hi hi'
        obtain ⟨heq, hj⟩ := ih hi hi' (by omega)
        exact ⟨congrArg (· + 1) heq, hj⟩

/-- Every number stands for a row and a place in it. -/
theorem exists_rowOffset {len : α → Nat} (rows : List α) {n : Nat} (h : n < (rows.map len).sum) :
    ∃ i j a, rows[i]? = some a ∧ j < len a ∧ n = rowOffset len rows i + j := by
  induction rows generalizing n with
  | nil => simp at h
  | cons b rest ih =>
    rw [List.map_cons, List.sum_cons] at h
    rcases Nat.lt_or_ge n (len b) with hlt | hge
    · exact ⟨0, n, b, rfl, hlt, by simp [rowOffset]⟩
    · obtain ⟨i, j, a, hi, hj, hn⟩ := ih (n := n - len b) (by omega)
      refine ⟨i + 1, j, a, by simpa using hi, hj, ?_⟩
      rw [rowOffset_cons_succ]
      omega

end GrammarTables
