import GrammarTables.Lexical.Build
import GrammarTables.Proofs.Arrays
import GrammarTables.Proofs.Lexical.Classes
/-
# Tables say what the cells say

The numbers in a table decode to the cells they were made from, merged classes have equal
columns, and the ranges of classes cover all code points.  Together: looking up a state and a
character stays within the table and gives the cell of the automaton (`cell?_tableOf`,
`classOf_tableOf`).
-/

namespace GrammarTables.Lexical

/-! ## 1. Numbers of cells -/

namespace LexTable

/-- Decodes the number of a cell, if the table has the entry that the number refers to. -/
def decode? (t : LexTable) (v : Int) : Option Cell :=
  if t.firstRule < v ∧ v < -1 then
    t.backtracking[(-2 - v).toNat]?.map fun e => .backtrack e.1 e.2
  else some (t.decode v)

/-- The cell of a state and a class, if the table has it. -/
def cell? (t : LexTable) (state cls : Nat) : Option Cell :=
  if state < t.states ∧ cls < t.classes then
    t.transitions[state * t.classes + cls]?.bind t.decode?
  else none

theorem decode_of_decode? {t : LexTable} {v : Int} {c : Cell} (h : t.decode? v = some c) :
    t.decode v = c := by
  unfold decode? at h
  split at h
  · rename_i hv
    obtain ⟨⟨action, state⟩, he, rfl⟩ := Option.map_eq_some_iff.mp h
    rw [decode, if_neg (by omega), if_neg (by omega), if_pos hv.1, he]
  · exact Option.some.inj h

theorem cell_of_cell? {t : LexTable} {s k : Nat} {c : Cell} (h : t.cell? s k = some c) :
    t.cell s k = c := by
  unfold cell? at h
  split at h
  · obtain ⟨v, hv, hc⟩ := Option.bind_eq_some_iff.mp h
    rw [cell, hv]
    exact decode_of_decode? hc
  · cases h

end LexTable

theorem mem_backtrackEntries {cells : List (List Cell)} {row : List Cell} {action state : Nat}
    (hrow : row ∈ cells) (hcell : .backtrack action state ∈ row) :
    (action, state) ∈ backtrackEntries cells := by
  refine (mem_internAll _).mpr (Or.inr (List.mem_filterMap.mpr ⟨.backtrack action state, ?_, rfl⟩))
  exact List.mem_flatten.mpr ⟨row, hrow, hcell⟩

/-- **Decoding undoes encoding**, for the cells that the backtracking entries were taken from. -/
theorem decode?_encode {cells : List (List Cell)} {row : List Cell} {c : Cell} {t : LexTable}
    (hentries : t.backtracking = backtrackEntries cells)
    (hfirst : t.firstRule = -2 - (t.backtracking.size : Int)) (hrow : row ∈ cells) (hc : c ∈ row) :
    t.decode? (c.encode t.backtracking t.firstRule) = some c := by
  cases c with
  | goto s =>
    rw [Cell.encode, LexTable.decode?, if_neg (by omega)]
    simp [LexTable.decode]
  | backtrack action state =>
    have hmem : (action, state) ∈ t.backtracking := hentries ▸ mem_backtrackEntries hrow hc
    obtain ⟨i, hi⟩ : ∃ i, t.backtracking.findIdx? (fun e => e = (action, state)) = some i := by
      rw [← Option.isSome_iff_exists, Array.findIdx?_isSome, Array.any_eq_true']
      exact ⟨(action, state), hmem, by simp⟩
    obtain ⟨hlt, hkey, -⟩ := Array.findIdx?_eq_some_iff_getElem.mp hi
    simp only [decide_eq_true_eq] at hkey
    have hget : t.backtracking[i]? = some (action, state) := by
      rw [Array.getElem?_eq_getElem hlt, hkey]
    rw [Cell.encode, hi, Option.getD_some, LexTable.decode?, if_pos (by omega)]
    rw [show (-2 - (-2 - (i : Int))).toNat = i by omega, hget]
    rfl
  | accept action =>
    rw [Cell.encode, LexTable.decode?, if_neg (by omega), LexTable.decode]
    rw [if_neg (by omega), if_neg (by omega), if_neg (by omega)]
    rw [show (t.firstRule - (t.firstRule - (action : Int))).toNat = action by omega]
  | invalid =>
    rw [Cell.encode, LexTable.decode?, if_neg (by omega)]
    simp [LexTable.decode]

/-! ## 2. Merged classes -/

/-- **Merged classes have equal columns**: a class has the column of the first class that it is
merged with. -/
theorem exists_representative {classes k : Nat} (rows : Array (Array Int)) (hk : k < classes) :
    ∃ first, (mergeClasses classes rows).representatives[
        (mergeClasses classes rows).classOf.getD k 0]? = some first ∧
      ∀ row ∈ rows, row.getD first (-1) = row.getD k (-1) := by
  cases k with
  | zero => exact ⟨0, by simp [mergeClasses], fun _ _ => rfl⟩
  | succ k =>
    have hcolumn : (columns classes rows)[k]?
        = some (rows.toList.map fun row => row.getD (k + 1) (-1)) := by
      have hlt : k < classes - 1 := by omega
      simp [columns, hlt]
    obtain ⟨n, hn, hkey⟩ := @getElem?_internAll _ _ #[] _ _ _ hcolumn
    have hlt : n < (internAll #[] (columns classes rows)).2.size :=
      (Array.getElem?_eq_some_iff.mp hkey).1
    -- the first class with the same number
    have hplace := List.idxOf_lt_length_of_mem (List.mem_of_getElem? hn)
    have hsame : (internAll #[] (columns classes rows)).1[
        (internAll #[] (columns classes rows)).1.idxOf n]? = some n := by
      rw [List.getElem?_eq_getElem hplace, List.getElem_idxOf]
    have hfirst := hplace
    rw [length_internAll] at hfirst
    obtain ⟨m, hm, hkey'⟩ := @getElem?_internAll _ _ #[] _ _ _ (List.getElem?_eq_getElem hfirst)
    obtain rfl : n = m := Option.some.inj (hsame.symm.trans hm)
    refine ⟨(internAll #[] (columns classes rows)).1.idxOf n + 1, ?_, ?_⟩
    · simp [mergeClasses, hn, firstPlaces, hlt]
    · have hcolumns := Option.some.inj (hkey'.symm.trans hkey)
      intro row hrow
      simp only [columns, List.getElem_map, List.getElem_range] at hcolumns
      exact List.map_inj_left.mp hcolumns row (Array.mem_toList_iff.mpr hrow)

/-! ## 3. Ranges of classes -/

/-- The intervals cover the code points from `lo` on, each with the value of `f` on it; the end
of the input comes last. -/
inductive Covers (f : Nat → Nat) : Nat → List (Nat × Nat × Nat) → Prop
  | last (k : Nat) : Covers f endMark [(endMark, endMark, k)]
  | cons {lo hi k : Nat} {rest : List (Nat × Nat × Nat)} : lo ≤ hi → hi < endMark →
      (∀ c, lo ≤ c → c ≤ hi → f c = k) → Covers f (hi + 1) rest →
      Covers f lo ((lo, hi, k) :: rest)

/-- The ranges cover the code points from `lo` on up to the end of the input. -/
inductive Tiles (f : Nat → Nat) : Nat → List ClassRange → Prop
  | nil : Tiles f endMark []
  | cons {lo hi k : Nat} {rest : List ClassRange} : lo ≤ hi →
      (∀ c, lo ≤ c → c ≤ hi → f c = k) → Tiles f (hi + 1) rest →
      Tiles f lo (⟨lo, hi, k⟩ :: rest)

/-- Joining touching ranges of one class changes nothing. -/
theorem Tiles.consRange {f : Nat → Nat} {lo hi k : Nat} {rest : List ClassRange} (hle : lo ≤ hi)
    (hvalue : ∀ c, lo ≤ c → c ≤ hi → f c = k) (h : Tiles f (hi + 1) rest) :
    Tiles f lo (consRange ⟨lo, hi, k⟩ rest) := by
  cases h with
  | nil => exact .cons hle hvalue .nil
  | @cons _ hi' k' rest' hle' hvalue' h' =>
    rw [Lexical.consRange]
    by_cases hjoin : k = k'
    · subst hjoin
      rw [if_pos (by simp)]
      refine .cons (Nat.le_trans hle (Nat.le_of_succ_le hle')) ?_ h'
      intro c hlo hhi
      rcases Nat.lt_or_ge hi c with hlt | hge
      · exact hvalue' c hlt hhi
      · exact hvalue c hlo hge
    · rw [if_neg (by simp [hjoin])]
      exact .cons hle hvalue (.cons hle' hvalue' h')

theorem Tiles.findRev?_eq_none {f : Nat → Nat} {lo c : Nat} {rs : List ClassRange}
    (h : Tiles f lo rs) (hc : c < lo) : rs.findRev? (fun r => r.first ≤ c) = none := by
  induction h with
  | nil => rfl
  | @cons lo hi k rest hle _ _ ih =>
    rw [List.findRev?, ih (by omega)]
    simp only [decide_eq_true_eq]
    rw [if_neg (by omega)]

/-- The range that is found has the value of the code point. -/
theorem Tiles.exists_range {f : Nat → Nat} {lo c : Nat} {rs : List ClassRange}
    (h : Tiles f lo rs) (hlo : lo ≤ c) (hc : c < endMark) :
    ∃ r, rs.findRev? (fun r => r.first ≤ c) = some r ∧ c ≤ r.last ∧ r.cls = f c := by
  induction h with
  | nil => omega
  | @cons lo hi k rest hle hvalue h ih =>
    rw [List.findRev?]
    rcases Nat.lt_or_ge hi c with hlt | hge
    · obtain ⟨r, hr, hlast⟩ := ih hlt
      rw [hr]
      exact ⟨r, rfl, hlast⟩
    · rw [h.findRev?_eq_none (by omega)]
      refine ⟨⟨lo, hi, k⟩, ?_, hge, (hvalue c hlo hge).symm⟩
      simp [hlo]

/-- Puts the range of an interval in front of a list, if it reaches beyond ASCII. -/
def addRange (merge : Merge) (interval : Nat × Nat × Nat) (ranges : List ClassRange) :
    List ClassRange :=
  if interval.1 = endMark || interval.2.1 < 128 then ranges
  else consRange ⟨max interval.1 128, interval.2.1, merge.classOf.getD interval.2.2 0⟩ ranges

theorem classRanges_eq (alphabet : Alphabet) (merge : Merge) :
    classRanges alphabet merge = alphabet.intervals.foldr (addRange merge) [] := rfl

/-- The ranges beyond ASCII of intervals that cover the code points. -/
theorem Covers.tiles {f : Nat → Nat} {lo : Nat} {items : List (Nat × Nat × Nat)} (merge : Merge)
    (h : Covers f lo items) :
    Tiles (fun c => merge.classOf.getD (f c) 0) (max lo 128) (items.foldr (addRange merge) []) := by
  induction h with
  | last k => exact .nil
  | @cons lo hi k rest hle hhi hvalue _ ih =>
    rw [List.foldr_cons, addRange]
    by_cases hlow : hi < 128
    · rw [if_pos (by simp [hlow])]
      rwa [show max (hi + 1) 128 = max lo 128 by omega] at ih
    · rw [if_neg (by simp [hlow, Nat.ne_of_lt (Nat.lt_of_le_of_lt hle hhi)])]
      rw [show max (hi + 1) 128 = hi + 1 by omega] at ih
      refine ih.consRange (Nat.max_le.mpr ⟨hle, Nat.not_lt.mp hlow⟩) ?_
      intro c hlo hhi
      rw [hvalue c (by omega) hhi]

/-- Intervals between ascending starts. -/
theorem covers_intervals {f : Nat → Nat} (starts classes : List Nat) (count : Nat)
    (hlength : starts.length = classes.length) (hsorted : (starts ++ [endMark]).Pairwise (· < ·))
    (hvalue : ∀ c start k, c < endMark → (start, k) ∈ starts.zip classes → start ≤ c →
      (∀ x ∈ starts, x ≤ c → x ≤ start) → f c = k) :
    Covers f (starts.headD endMark)
      (Alphabet.intervals ⟨starts ++ [endMark], classes ++ [eoiClass], count⟩) := by
  induction starts generalizing classes with
  | nil =>
    obtain rfl : classes = [] := List.length_eq_zero_iff.mp hlength.symm
    exact .last eoiClass
  | cons lo starts ih =>
    cases classes with
    | nil => simp at hlength
    | cons k classes =>
      obtain ⟨hlo, hrest⟩ := List.pairwise_cons.mp hsorted
      have hnext : lo < starts.headD endMark := by
        cases starts with
        | nil => exact hlo _ (by simp)
        | cons next starts => exact hlo _ (by simp)
      have hend : starts.headD endMark ≤ endMark := by
        cases starts with
        | nil => exact Nat.le_refl _
        | cons next starts => exact Nat.le_of_lt ((List.pairwise_cons.mp hrest).1 _ (by simp))
      have hbelow : ∀ c, c < starts.headD endMark → ∀ x ∈ starts, ¬ x ≤ c := by
        intro c hc x hx
        cases starts with
        | nil => simp at hx
        | cons next starts =>
          rcases List.mem_cons.mp hx with rfl | hx
          · exact Nat.not_le.mpr hc
          · have := (List.pairwise_cons.mp hrest).1 x (by simp [hx])
            simp only [List.headD_cons] at hc
            omega
      have heq : Alphabet.intervals
            ⟨(lo :: starts) ++ [endMark], (k :: classes) ++ [eoiClass], count⟩
          = (lo, starts.headD endMark - 1, k) ::
            Alphabet.intervals ⟨starts ++ [endMark], classes ++ [eoiClass], count⟩ := by
        cases starts <;> rfl
      rw [heq, List.headD_cons]
      refine .cons (by omega) (by omega) ?_ ?_
      · intro c hlow hhigh
        refine hvalue c lo k (by omega) (by simp) hlow ?_
        intro x hx hxc
        rcases List.mem_cons.mp hx with rfl | hx
        · exact Nat.le_refl _
        · exact absurd hxc (hbelow c (by omega) x hx)
      · rw [Nat.sub_add_cancel (by omega)]
        refine ih classes (by simpa using hlength) hrest ?_
        intro c start k' hc hzip hle hmax
        refine hvalue c start k' hc (List.mem_cons_of_mem _ hzip) hle ?_
        intro x hx hxc
        rcases List.mem_cons.mp hx with rfl | hx
        · exact Nat.le_of_lt (hlo start (by simp [(List.of_mem_zip hzip).1]))
        · exact hmax x hx hxc

/-- The intervals of an alphabet cover all code points. -/
theorem Alphabet.covers (sets : List CharSet) :
    Covers (Alphabet.of sets).classOf 0 (Alphabet.of sets).intervals := by
  have hsorted : (lowCuts sets ++ [endMark]).Pairwise (· < ·) := by
    rw [lowCuts, ← cuts_eq]
    exact pairwise_cuts sets
  have hzero : (lowCuts sets).headD endMark = 0 := by
    have hmem : 0 ∈ lowCuts sets :=
      List.mem_filter.mpr ⟨mem_cuts.mpr ⟨Or.inl rfl, Nat.zero_le _⟩, rfl⟩
    cases hlow : lowCuts sets with
    | nil => simp [hlow] at hmem
    | cons a rest =>
      rw [hlow] at hmem hsorted
      rcases List.mem_cons.mp hmem with h | h
      · exact h.symm
      · have := (List.pairwise_cons.mp hsorted).1 0 (by simp [h])
        omega
  have h := @covers_intervals (Alphabet.of sets).classOf (lowCuts sets)
    ((numbering sets).1.map (· + 1)) ((numbering sets).2.size + 1)
    (by rw [List.length_map, length_numbering]) hsorted ?_
  · rw [hzero, ← Alphabet.of_eq] at h
    exact h
  · intro c start k hc hzip hle hmax
    obtain ⟨start', hzip', hle', hmax'⟩ := Alphabet.exists_interval sets c
    have hcut : start ∈ cuts sets := (List.mem_filter.mp (List.of_mem_zip hzip).1).1
    rw [zip_starts_classes, List.mem_append, List.mem_singleton] at hzip'
    rcases hzip' with hzip' | hzip'
    · obtain rfl : start = start' :=
        Nat.le_antisymm (hmax' start hcut hle) (hmax start' (List.of_mem_zip hzip').1 hle')
      obtain ⟨i, hi⟩ := List.mem_iff_getElem?.mp hzip
      obtain ⟨j, hj⟩ := List.mem_iff_getElem?.mp hzip'
      rw [List.getElem?_zip_eq_some] at hi hj
      obtain rfl : i = j := by
        have hnodup : (lowCuts sets).Nodup :=
          (List.pairwise_append.mp hsorted).1.imp Nat.ne_of_lt
        exact (List.getElem?_inj (List.getElem?_eq_some_iff.mp hi.1).1 hnodup).mp
          (hi.1.trans hj.1.symm)
      exact Option.some.inj (hj.2.symm.trans hi.2)
    · have := (Prod.mk.inj hzip').1
      omega

/-! ## 4. Lookups -/

namespace Plan

/-- The numbers of the cells of a plan, row by row. -/
def rows (p : Plan) : Array (Array Int) :=
  let entries := backtrackEntries p.matcher.cells
  (p.matcher.cells.map fun row =>
    (row.map (Cell.encode entries (-2 - (entries.size : Int)))).toArray).toArray

/-- How the classes of a plan are merged. -/
def merge (p : Plan) : Merge := mergeClasses p.alphabet.count p.rows

/-- **The table has the cells of the automaton**, under the merged classes. -/
theorem cell?_tableOf (g : Grammar) (p : Plan) (instances : List InstanceGroup)
    (hcount : p.matcher.classes = p.alphabet.count) {s k : Nat} (hs : s < p.matcher.dfa.size)
    (hk : k < p.matcher.classes) :
    (tableOf g p p.matcher.cells instances).cell? s (p.merge.classOf.getD k 0)
      = some (p.matcher.cell p.matcher.mayFail s k) := by
  obtain ⟨first, hfirst, hcolumn⟩ := exists_representative p.rows (hcount ▸ hk)
  have hrow : p.rows[s]? = some ((List.range p.matcher.classes).map fun k =>
      (p.matcher.cell p.matcher.mayFail s k).encode (backtrackEntries p.matcher.cells)
        (-2 - ((backtrackEntries p.matcher.cells).size : Int))).toArray := by
    simp [rows, Matcher.cells, hs, Function.comp_def]
  have hmem := Array.mem_of_getElem? hrow
  have hwidth : ∀ row : Array Int,
      (p.merge.representatives.map fun k => row.getD k (-1)).length
        = p.merge.representatives.length := fun row => List.length_map _
  have hlt : p.merge.classOf.getD k 0 < p.merge.representatives.length :=
    (List.getElem?_eq_some_iff.mp hfirst).1
  have hlookup : (tableOf g p p.matcher.cells instances).transitions[
      s * p.merge.representatives.length + p.merge.classOf.getD k 0]?
      = some ((p.matcher.cell p.matcher.mayFail s k).encode (backtrackEntries p.matcher.cells)
        (-2 - ((backtrackEntries p.matcher.cells).size : Int))) := by
    have htable : (tableOf g p p.matcher.cells instances).transitions
        = (p.rows.toList.flatMap fun row =>
          p.merge.representatives.map fun k => row.getD k (-1)).toArray := rfl
    rw [htable, List.getElem?_toArray, getElem?_flatMap_of_length hwidth hlt,
      Array.getElem?_toList, hrow, Option.bind_some, List.getElem?_map]
    rw [show p.merge.representatives[p.merge.classOf.getD k 0]? = some first from hfirst,
      Option.map_some, hcolumn _ hmem]
    simp [Array.getD_eq_getD_getElem?, hk]
  have hcells : (List.range p.matcher.classes).map (p.matcher.cell p.matcher.mayFail s)
      ∈ p.matcher.cells :=
    List.mem_map.mpr ⟨s, List.mem_range.mpr hs, rfl⟩
  have hclasses : (tableOf g p p.matcher.cells instances).classes =
      p.merge.representatives.length := rfl
  have hstates : (tableOf g p p.matcher.cells instances).states = p.matcher.dfa.size := rfl
  rw [LexTable.cell?, hclasses, hstates, if_pos ⟨hs, hlt⟩, hlookup]
  exact decode?_encode rfl rfl hcells (List.mem_map.mpr ⟨k, List.mem_range.mpr hk, rfl⟩)

/-- **The table has the classes of the code points.** -/
theorem classOf_tableOf (g : Grammar) (p : Plan) (instances : List InstanceGroup)
    {sets : List CharSet} (halphabet : p.alphabet = .of sets) {c : Nat} (hc : c < endMark) :
    (tableOf g p p.matcher.cells instances).classOf c
      = p.merge.classOf.getD (p.alphabet.classOf c) 0 := by
  have hascii : (tableOf g p p.matcher.cells instances).asciiClasses
      = ((List.range 128).map fun c => p.merge.classOf.getD (p.alphabet.classOf c) 0).toArray := rfl
  have hranges : (tableOf g p p.matcher.cells instances).classRanges
      = classRanges p.alphabet p.merge := rfl
  unfold LexTable.classOf
  rw [hascii, hranges]
  rcases Nat.lt_or_ge c 128 with hlt | hge
  · simp [hlt]
  · have htiles := (Alphabet.covers sets).tiles p.merge
    rw [← halphabet] at htiles
    obtain ⟨r, hr, hlast, hcls⟩ := htiles.exists_range (by omega) hc
    rw [← classRanges_eq] at hr
    simp only [List.getElem?_toArray, List.getElem?_map]
    rw [List.getElem?_eq_none (by simpa using hge), hr]
    simp only [Option.map_none]
    rw [if_pos hlast, hcls]

/-- The class of the end of the input stays alone. -/
theorem classOf_merge_eoi (p : Plan) : p.merge.classOf.getD eoiClass 0 = eoiClass := by
  simp [merge, mergeClasses, eoiClass]

end Plan

end GrammarTables.Lexical
