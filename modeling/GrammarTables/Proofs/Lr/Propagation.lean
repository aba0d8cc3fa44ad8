import Mathlib.Data.Finset.Prod
import GrammarTables.Proofs.Lr.Lookahead
import GrammarTables.Proofs.Ordered
import GrammarTables.Proofs.Rounds
/-
# Lookaheads by rounds of propagation

The lookaheads of all kernel items can also be found together.  They begin with what is generated
for each item, a round goes through all links and takes the lookaheads of one item to the next, and
rounds are made while one changes something.  The rounds come to rest at what reaches the items
along the links (`restsAt_spread`), and with that the reductions are the same
(`reductions_of_rounds`).
-/

namespace GrammarTables.Lr

/-- The terminals that may follow each kernel item, ascending. -/
abbrev Rows := Array (List Nat)

namespace Rows

variable {rows rows' : Rows} {links : List (Nat × Nat)} {link : Nat × Nat} {x la count m : Nat}

/-! ## 1. One round -/

/-- The terminals that may follow an item. -/
def las (rows : Rows) (x : Nat) : List Nat := rows.getD x []

/-- A link takes the terminals of one item to another; there is nothing to take to the item
itself. -/
def along (rows : Rows) (link : Nat × Nat) : Rows :=
  if link.2 = link.1 then rows
  else rows.setIfInBounds link.2 (ascending (rows.las link.2 ++ rows.las link.1))

/-- One round over some links. -/
def spread (links : List (Nat × Nat)) (rows : Rows) : Rows := links.foldl along rows

theorem spread_cons : rows.spread (link :: links) = (rows.along link).spread links := rfl

theorem spread_append (before after : List (Nat × Nat)) :
    rows.spread (before ++ after) = (rows.spread before).spread after :=
  List.foldl_append

@[simp] theorem size_along : (rows.along link).size = rows.size := by
  unfold along
  split <;> simp

theorem las_along : (rows.along link).las x =
    if link.2 ≠ link.1 ∧ link.2 = x ∧ link.2 < rows.size then
      ascending (rows.las link.2 ++ rows.las link.1)
    else rows.las x := by
  unfold along
  by_cases hself : link.2 = link.1
  · rw [if_pos hself, if_neg fun h => h.1 hself]
  · rw [if_neg hself, las, getD_setIfInBounds]
    simp only [ne_eq, hself, not_false_iff, true_and, las]

theorem mem_along : la ∈ (rows.along link).las x ↔
    la ∈ rows.las x ∨ x = link.2 ∧ x < rows.size ∧ la ∈ rows.las link.1 := by
  rw [las_along]
  split
  · rename_i h
    obtain ⟨-, rfl, hlt⟩ := h
    simp [mem_ascending, hlt]
  · rename_i h
    constructor
    · exact Or.inl
    · rintro (hla | ⟨rfl, hlt, hla⟩)
      · exact hla
      · have hself : link.2 = link.1 := by
          by_contra hne
          exact h ⟨hne, rfl, hlt⟩
        exact hself ▸ hla

@[simp] theorem size_spread : (rows.spread links).size = rows.size := by
  induction links generalizing rows with
  | nil => rfl
  | cons link rest ih => exact ih.trans size_along

/-- A round only adds. -/
theorem mem_spread (h : la ∈ rows.las x) : la ∈ (rows.spread links).las x := by
  induction links generalizing rows with
  | nil => exact h
  | cons link rest ih => exact ih (mem_along.mpr (Or.inl h))

/-- What each link keeps holds of all that a round adds. -/
theorem forall_mem_spread {Q : Nat → Nat → Prop}
    (hlinks : ∀ link ∈ links, link.2 < rows.size → ∀ la, Q link.1 la → Q link.2 la)
    (h : ∀ x, ∀ la ∈ rows.las x, Q x la) : ∀ x, ∀ la ∈ (rows.spread links).las x, Q x la := by
  induction links generalizing rows with
  | nil => exact h
  | cons link rest ih =>
    refine ih (fun l hl => by simpa using hlinks l (List.mem_cons_of_mem link hl)) fun x la hla => ?_
    rcases mem_along.mp hla with hla | ⟨rfl, hlt, hla⟩
    · exact h x la hla
    · exact hlinks link (by simp) hlt la (h link.1 la hla)

/-- **At rest each link has been followed.**  No later link undoes what an earlier one does. -/
theorem mem_of_spread_eq (h : rows.spread links = rows) (hlink : link ∈ links)
    (hlt : link.2 < rows.size) (hla : la ∈ rows.las link.1) : la ∈ rows.las link.2 := by
  obtain ⟨before, after, rfl⟩ := List.append_of_mem hlink
  have hsize : (rows.spread before).size = rows.size := size_spread
  rw [← h, spread_append, spread_cons]
  exact mem_spread (mem_along.mpr (Or.inr ⟨rfl, hsize ▸ hlt, mem_spread hla⟩))

/-! ## 2. The rounds end -/

/-- There is a row for each of `count` items, with terminals below `m` in ascending order. -/
structure Proper (count m : Nat) (rows : Rows) : Prop where
  size : rows.size = count
  ascending : ∀ x, (rows.las x).Pairwise (· < ·)
  lt : ∀ x, ∀ la ∈ rows.las x, la < m

theorem Proper.along (h : rows.Proper count m) : (rows.along link).Proper count m where
  size := size_along.trans h.size
  ascending x := by
    rw [las_along]
    split
    · exact pairwise_ascending _
    · exact h.ascending x
  lt x la hla := by
    rcases mem_along.mp hla with hla | ⟨-, -, hla⟩
    · exact h.lt x la hla
    · exact h.lt link.1 la hla

theorem Proper.spread (h : rows.Proper count m) : (rows.spread links).Proper count m :=
  List.foldlRecOn links Rows.along h fun _ h _ _ => h.along

/-- Rows with the same terminals are the same. -/
theorem Proper.ext (h : rows.Proper count m) (h' : rows'.Proper count m)
    (hmem : ∀ x < count, ∀ la, la ∈ rows.las x ↔ la ∈ rows'.las x) : rows = rows' := by
  refine Array.ext (h.size.trans h'.size.symm) fun x hx hx' => ?_
  have hrow := ascending_ext (h.ascending x) (h'.ascending x) (hmem x (h.size ▸ hx))
  simpa [las, Array.getD_eq_getD_getElem?, hx, hx'] using hrow

/-- All that rows say: an item and a terminal that may follow it. -/
def sayings (count m : Nat) (rows : Rows) : Finset (Nat × Nat) :=
  (Finset.range count ×ˢ Finset.range m).filter fun e => e.2 ∈ rows.las e.1

theorem Proper.mem_sayings (h : rows.Proper count m) :
    (x, la) ∈ sayings count m rows ↔ la ∈ rows.las x := by
  simp only [sayings, Finset.mem_filter, Finset.mem_product, Finset.mem_range,
    and_iff_right_iff_imp]
  exact fun hla => ⟨h.size ▸ lt_size_of_mem_getD hla, h.lt x la hla⟩

/-- **Rounds over links come to rest.** -/
theorem Proper.exists_restsAt (h : rows.Proper count m) (links : List (Nat × Nat)) :
    ∃ rows', RestsAt (Rows.spread links) rows rows' := by
  have hrounds : ∃ k ≤ (Finset.range count ×ˢ Finset.range m).card,
      Rows.spread links ((Rows.spread links)^[k] rows) = (Rows.spread links)^[k] rows :=
    exists_rest (sayings count m) _ (P := (Proper count m ·)) (fun _ h => h.spread)
      (fun _ _ => Finset.filter_subset _ _)
      (fun _ h _ he => h.spread.mem_sayings.mpr (mem_spread (h.mem_sayings.mp he)))
      (fun _ h heq => h.spread.ext h fun x _ la => by
        rw [← h.spread.mem_sayings, heq, h.mem_sayings]) h
  obtain ⟨k, -, hrest⟩ := hrounds
  exact ⟨_, restsAt_of_rest hrest⟩

end Rows

/-! ## 3. The lookaheads of kernel items -/

section Lookaheads

variable (p : Productions) (a : Automaton) (inputs : List Input)

/-- All links, in the order of the items that they come from. -/
def allLinks : List (Nat × Nat) :=
  (List.range (kernelCount a)).flatMap fun id => (linksAt p a id).map (id, ·)

/-- What is generated for each kernel item. -/
def generatedRows : Rows := ((List.range (kernelCount a)).map fun id =>
  (List.range p.terminals).filter fun la => id ∈ generatedFor p a inputs la).toArray

/-- The lookaheads of each kernel item. -/
def lookaheadRows : Rows := ((List.range (kernelCount a)).map (lookaheadsOf p a inputs)).toArray

variable {p a inputs}

theorem mem_allLinks {link : Nat × Nat} :
    link ∈ allLinks p a ↔ link.1 < kernelCount a ∧ link.2 ∈ linksAt p a link.1 := by
  simp only [allLinks, List.mem_flatMap, List.mem_range, List.mem_map]
  constructor
  · rintro ⟨id, hid, id', hlink, rfl⟩
    exact ⟨hid, hlink⟩
  · rintro ⟨hid, hlink⟩
    exact ⟨link.1, hid, link.2, hlink, rfl⟩

theorem las_generatedRows (id : Nat) : (generatedRows p a inputs).las id =
    if id < kernelCount a then
      (List.range p.terminals).filter fun la => id ∈ generatedFor p a inputs la
    else [] := by
  by_cases hid : id < kernelCount a
  · simp [generatedRows, Rows.las, Array.getD_eq_getD_getElem?, hid]
  · simp [generatedRows, Rows.las, Array.getD_eq_getD_getElem?, hid]

theorem las_lookaheadRows (id : Nat) : (lookaheadRows p a inputs).las id =
    if id < kernelCount a then lookaheadsOf p a inputs id else [] := by
  by_cases hid : id < kernelCount a
  · simp [lookaheadRows, Rows.las, Array.getD_eq_getD_getElem?, hid]
  · simp [lookaheadRows, Rows.las, Array.getD_eq_getD_getElem?, hid]

theorem mem_generatedRows {id la : Nat} : la ∈ (generatedRows p a inputs).las id ↔
    id < kernelCount a ∧ id ∈ generatedFor p a inputs la := by
  rw [las_generatedRows]
  split
  · rename_i hid
    have hlt : id ∈ generatedFor p a inputs la → la < p.terminals := fun h =>
      (mem_generatedFor.mp h).1
    simp only [List.mem_filter, List.mem_range, decide_eq_true_eq, hid, true_and,
      and_iff_right_iff_imp]
    exact hlt
  · rename_i hid
    simp [hid]

/-- Rows filled by a function that gives terminals in ascending order. -/
theorem proper_rows {rows : Rows} {f : Nat → List Nat} {count m : Nat} (hsize : rows.size = count)
    (hlas : ∀ id, rows.las id = if id < count then f id else [])
    (hf : ∀ id, (f id).Pairwise (· < ·) ∧ ∀ la ∈ f id, la < m) : rows.Proper count m where
  size := hsize
  ascending id := by
    rw [hlas]
    split
    · exact (hf id).1
    · exact .nil
  lt id la hla := by
    rw [hlas] at hla
    split at hla
    · exact (hf id).2 la hla
    · cases hla

theorem proper_generatedRows : (generatedRows p a inputs).Proper (kernelCount a) p.terminals :=
  proper_rows (by simp [generatedRows]) las_generatedRows fun _ =>
    ⟨pairwise_range_filter _ _, fun _ hla => List.mem_range.mp (List.mem_filter.mp hla).1⟩

theorem proper_lookaheadRows : (lookaheadRows p a inputs).Proper (kernelCount a) p.terminals :=
  proper_rows (by simp [lookaheadRows]) las_lookaheadRows fun _ =>
    ⟨pairwise_range_filter _ _, fun _ hla => lt_of_mem_lookaheadsOf hla⟩

/-- Rows at rest that have all that is generated have all that is reached from there. -/
theorem mem_of_rest {rows : Rows} (hsize : rows.size = kernelCount a)
    (hrest : rows.spread (allLinks p a) = rows)
    (hgenerated : ∀ id, ∀ la ∈ (generatedRows p a inputs).las id, la ∈ rows.las id) {id la : Nat}
    (h : la ∈ lookaheadsOf p a inputs id) : la ∈ rows.las id := by
  obtain ⟨v, hv, hlt, hleads⟩ := mem_lookaheadsOf.mp h
  clear h
  induction hleads with
  | refl => exact hgenerated v la (mem_generatedRows.mpr ⟨hlt, hv⟩)
  | @tail u w hleads hstep ih =>
    have hlink : (u, w) ∈ allLinks p a :=
      mem_allLinks.mpr ⟨Graph.lt_of_leads hlt hleads, hstep.1⟩
    exact Rows.mem_of_spread_eq hrest hlink (hsize ▸ hstep.2) ih

/-- What is generated is a lookahead, and a link takes lookaheads to lookaheads. -/
theorem mem_lookaheadsOf_of_rounds {rows : Rows}
    (h : RestsAt (Rows.spread (allLinks p a)) (generatedRows p a inputs) rows) :
    ∀ id, ∀ la ∈ rows.las id, id < kernelCount a ∧ la ∈ lookaheadsOf p a inputs id := by
  have hkept : rows.size = kernelCount a ∧
      ∀ id, ∀ la ∈ rows.las id, id < kernelCount a ∧ la ∈ lookaheadsOf p a inputs id := by
    refine h.preserves (P := fun rows : Rows => rows.size = kernelCount a ∧
      ∀ id, ∀ la ∈ rows.las id, id < kernelCount a ∧ la ∈ lookaheadsOf p a inputs id) ?_ ?_
    · rintro rows ⟨hsize, hrows⟩
      refine ⟨Rows.size_spread.trans hsize, Rows.forall_mem_spread ?_ hrows⟩
      rintro link hlink hlt la ⟨-, hla⟩
      rw [hsize] at hlt
      exact ⟨hlt, lookaheadsOf_of_link hla (mem_allLinks.mp hlink).2 hlt⟩
    · refine ⟨proper_generatedRows.size, fun id la hla => ?_⟩
      obtain ⟨hlt, hid⟩ := mem_generatedRows.mp hla
      exact ⟨hlt, lookaheadsOf_of_generated hid hlt⟩
  exact hkept.2

/-- **The rounds come to rest at the lookaheads of the kernel items.** -/
theorem restsAt_spread :
    RestsAt (Rows.spread (allLinks p a)) (generatedRows p a inputs) (lookaheadRows p a inputs) := by
  have hinitial : (generatedRows p a inputs).Proper (kernelCount a) p.terminals :=
    proper_generatedRows
  obtain ⟨rows, hrests⟩ := hinitial.exists_restsAt (allLinks p a)
  have hproper : rows.Proper (kernelCount a) p.terminals :=
    hrests.preserves (fun _ h => h.spread) hinitial
  have hgenerated : ∀ id, ∀ la ∈ (generatedRows p a inputs).las id, la ∈ rows.las id :=
    fun id la hla => hrests.preserves (P := fun rows : Rows => la ∈ rows.las id)
      (fun _ h => Rows.mem_spread h) hla
  have heq : rows = lookaheadRows p a inputs := by
    refine hproper.ext proper_lookaheadRows fun id hid la => ?_
    rw [las_lookaheadRows, if_pos hid]
    exact ⟨fun hla => (mem_lookaheadsOf_of_rounds hrests id la hla).2,
      mem_of_rest hproper.size hrests.rest hgenerated⟩
  exact heq ▸ hrests

variable (p a inputs) in
/-- Rounds of propagation give the reductions: they come to rest with rows from which each
state has its reductions. -/
theorem reductions_of_rounds : ∃ rows,
    RestsAt (Rows.spread (allLinks p a)) (generatedRows p a inputs) rows ∧
    ∀ (s : Nat) (st : ItemState), a.states[s]? = some st →
      (reductions (Context.ofProductions p) a inputs).getD s [] =
        reductionsOf (st.kernel.map (flowsAt p a st)) p.terminals
          ((List.range st.kernel.length).map fun j => rows.las (kernelNumber a s j)) := by
  refine ⟨lookaheadRows p a inputs, restsAt_spread, fun s st hs => ?_⟩
  rw [getD_reductions hs]
  congr 1
  refine List.map_congr_left fun j hj => ?_
  have hk := List.getElem?_eq_getElem (List.mem_range.mp hj)
  rw [las_lookaheadRows, if_pos (kernelNumber_lt hs hk)]

end Lookaheads

end GrammarTables.Lr
