import GrammarTables.Proofs.Lexical.Agreement
import GrammarTables.Proofs.Scan.Bounds
/-
# Encoding and merging lose nothing

The cells of an automaton are written as numbers, classes of characters that behave alike in every
state are merged, and the classes of the characters are kept in a list for ASCII and in ranges for
the rest.  Whatever the grammar, its tables say of every state and every code point what the
automaton says, two code points share a class exactly if no state tells them apart
(`LexTable.Compresses`), every code point is listed once (`LexTable.Listed`), and the numbers of
the cells lie between bounds that the table shows (`LexTable.Narrow`).
-/

namespace GrammarTables.Lexical

/-! ## 1. What is kept -/

/-- **The table does what the automaton does** at every code point and at the end of the input,
with the fewest classes that tell characters apart. -/
structure LexTable.Compresses (t : LexTable) (m : Matcher) (classOf : Nat → Nat) : Prop where
  states : t.states = m.dfa.size
  char : ∀ s < t.states, ∀ c ≤ maxCodePoint,
    t.cell? s (t.classOf c) = some (m.cell m.mayFail s (classOf c))
  eoi : ∀ s < t.states, t.cell? s eoiClass = some (m.cell m.mayFail s eoiClass)
  /-- No character has the class of the end of the input. -/
  classOf_ne : ∀ c ≤ maxCodePoint, t.classOf c ≠ eoiClass
  classOf_lt : ∀ c ≤ maxCodePoint, t.classOf c < t.classes
  /-- Characters are told apart exactly if the automaton tells them apart in some state. -/
  classOf_eq_iff : ∀ c ≤ maxCodePoint, ∀ d ≤ maxCodePoint, t.classOf c = t.classOf d ↔
    ∀ s < t.states, m.cell m.mayFail s (classOf c) = m.cell m.mayFail s (classOf d)

/-- **Every code point is listed once**: those of ASCII one by one, the others in ranges that follow
each other without gaps, neighbours with different classes. -/
structure LexTable.Listed (t : LexTable) : Prop where
  size_ascii : t.asciiClasses.size = 128
  ascii : ∀ c < 128, t.asciiClasses[c]? = some (t.classOf c)
  range : ∀ c, 128 ≤ c → c ≤ maxCodePoint →
    ∃! r, r ∈ t.classRanges ∧ r.first ≤ c ∧ c ≤ r.last
  bounds : ∀ r ∈ t.classRanges, 128 ≤ r.first ∧ r.first ≤ r.last ∧ r.last ≤ maxCodePoint
  classOf_range : ∀ r ∈ t.classRanges, ∀ c, r.first ≤ c → c ≤ r.last → t.classOf c = r.cls
  sorted : t.classRanges.Pairwise fun r s => r.last < s.first
  neighbours : t.classRanges.IsChain fun r s => r.last + 1 = s.first ∧ r.cls ≠ s.cls

/-- The numbers of the cells lie between what the entries and the actions need on one side and
the states on the other.

Cells are integers of any size here, and a table is built whatever the number of states.  A
generator that writes cells in words of 32 bits has to refuse the automaton (an error for too many
states) when these bounds leave the words; that error has no counterpart in `build`. -/
structure LexTable.Narrow (t : LexTable) : Prop where
  firstRule : t.firstRule = -2 - (t.backtracking.size : Int)
  lower : ∀ v ∈ t.transitions, -(2 + t.backtracking.size + t.actions : Int) < v
  upper : ∀ v ∈ t.transitions, v < t.states

/-! ## 2. Ranges -/

section Ranges

variable {f : Nat → Nat} {lo : Nat} {rs : List ClassRange}

theorem Tiles.le (h : Tiles f lo rs) : lo ≤ endMark := by
  induction h with
  | nil => exact Nat.le_refl _
  | cons hle _ _ ih => omega

/-- Each range lies where it may and has the value of its code points. -/
theorem Tiles.of_mem (h : Tiles f lo rs) : ∀ r ∈ rs, lo ≤ r.first ∧ r.first ≤ r.last ∧
    r.last < endMark ∧ ∀ c, r.first ≤ c → c ≤ r.last → f c = r.cls := by
  induction h with
  | nil => simp
  | @cons lo hi k rest hle hvalue hrest ih =>
    refine List.forall_mem_cons.mpr ⟨⟨Nat.le_refl _, hle, hrest.le, hvalue⟩, fun r hr => ?_⟩
    obtain ⟨hfirst, hr⟩ := ih r hr
    exact ⟨by omega, hr⟩

theorem Tiles.pairwise (h : Tiles f lo rs) : rs.Pairwise fun r s => r.last < s.first := by
  induction h with
  | nil => exact .nil
  | cons _ _ hrest ih => exact .cons (fun s hs => (hrest.of_mem s hs).1) ih

/-- Ranges follow each other without gaps. -/
theorem Tiles.isChain (h : Tiles f lo rs) : rs.IsChain fun r s => r.last + 1 = s.first := by
  induction h with
  | nil => exact .nil
  | cons _ _ hrest ih =>
    cases hrest with
    | nil => exact .singleton _
    | cons => exact List.isChain_cons_cons.mpr ⟨rfl, ih⟩

/-- A code point lies in exactly one range. -/
theorem Tiles.existsUnique (h : Tiles f lo rs) {c : Nat} (hlo : lo ≤ c) (hc : c < endMark) :
    ∃! r, r ∈ rs ∧ r.first ≤ c ∧ c ≤ r.last := by
  induction h with
  | nil => omega
  | @cons lo hi k rest hle _ hrest ih =>
    rcases Nat.lt_or_ge hi c with hlt | hge
    · obtain ⟨r, ⟨hr, hmem⟩, hunique⟩ := ih hlt
      refine ⟨r, ⟨List.mem_cons_of_mem _ hr, hmem⟩, ?_⟩
      rintro s ⟨hs, hfirst, hlast⟩
      rcases List.mem_cons.mp hs with rfl | hs
      · exact absurd hlast (Nat.not_le.mpr hlt)
      · exact hunique s ⟨hs, hfirst, hlast⟩
    · refine ⟨⟨lo, hi, k⟩, ⟨List.mem_cons_self, hlo, hge⟩, ?_⟩
      rintro s ⟨hs, hfirst, -⟩
      rcases List.mem_cons.mp hs with rfl | hs
      · rfl
      · have := (hrest.of_mem s hs).1
        omega

/-- Ranges that touch have different classes. -/
def Apart (rs : List ClassRange) : Prop :=
  rs.IsChain fun r s => r.last + 1 = s.first → r.cls ≠ s.cls

theorem apart_consRange (r : ClassRange) (h : Apart rs) : Apart (consRange r rs) := by
  cases rs with
  | nil => exact .singleton _
  | cons s rest =>
    rw [consRange]
    split
    · -- the joined range ends like the one before it
      cases rest with
      | nil => exact .singleton _
      | cons s' rest => exact List.isChain_cons_cons.mpr (List.isChain_cons_cons.mp h)
    · rename_i hjoin
      refine List.isChain_cons_cons.mpr ⟨fun htouch hcls => hjoin ?_, h⟩
      simp [htouch, hcls]

theorem apart_classRanges (alphabet : Alphabet) (merge : Merge) :
    Apart (classRanges alphabet merge) := by
  rw [classRanges_eq]
  refine List.foldrRecOn _ _ .nil fun ranges hranges interval _ => ?_
  rw [addRange]
  split
  · exact hranges
  · exact apart_consRange _ hranges

end Ranges

/-! ## 3. Merged classes -/

section Merged

variable {p : Plan} {sets : List CharSet} (halphabet : p.alphabet = .of sets)
  (hcount : p.matcher.classes = p.alphabet.count) (g : Grammar) (instances : List InstanceGroup)

include halphabet hcount in
/-- The class of a character in the table is the place of its column. -/
theorem Plan.classOf_tableOf_eq {c : Nat} (hc : c < endMark) :
    p.column (p.alphabet.classOf c) ∈ p.distinct ∧
      (tableOf g p p.matcher.cells instances).classOf c
        = p.distinct.idxOf (p.column (p.alphabet.classOf c)) + 1 := by
  obtain ⟨hpos, hlt⟩ := Alphabet.classOf_of_lt sets hc
  rw [← halphabet] at hpos hlt
  rw [classOf_tableOf g p instances halphabet hc]
  obtain ⟨k, hk⟩ := Nat.exists_eq_succ_of_ne_zero (Nat.ne_of_gt hpos)
  rw [hk, ← hcount] at hlt
  rw [hk]
  refine ⟨?_, classOf_merge_succ hcount hlt⟩
  rw [distinct_eq, List.mem_eraseDups]
  exact List.mem_map.mpr ⟨k, List.mem_range.mpr (Nat.lt_sub_of_add_lt hlt), rfl⟩

include halphabet hcount in
/-- **The table of a plan compresses its automaton.** -/
theorem Plan.compresses_tableOf : (tableOf g p p.matcher.cells instances).Compresses p.matcher
    p.alphabet.classOf := by
  have hclasses : (tableOf g p p.matcher.cells instances).classes = p.distinct.length + 1 :=
    length_representatives hcount
  have hclass : ∀ c ≤ maxCodePoint, _ :=
    fun c hc => classOf_tableOf_eq halphabet hcount g instances (c := c) (Nat.lt_succ_of_le hc)
  have hchar : ∀ s < p.matcher.dfa.size, ∀ c ≤ maxCodePoint,
      (tableOf g p p.matcher.cells instances).cell? s
          ((tableOf g p p.matcher.cells instances).classOf c)
        = some (p.matcher.cell p.matcher.mayFail s (p.alphabet.classOf c)) := by
    intro s hs c hc
    have hc : c < endMark := Nat.lt_succ_of_le hc
    rw [classOf_tableOf g p instances halphabet hc]
    refine cell?_tableOf g p instances hcount hs ?_
    rw [hcount, halphabet]
    exact (Alphabet.classOf_of_lt sets hc).2
  refine
    { states := rfl
      char := hchar
      eoi := fun s hs => ?_
      classOf_ne := fun c hc => ?_
      classOf_lt := fun c hc => ?_
      classOf_eq_iff := fun c hc d hd => ⟨fun hsame s hs => ?_, fun hsame => ?_⟩ }
  · have hpos : eoiClass < p.matcher.classes := by
      rw [hcount, halphabet]
      exact Alphabet.count_pos sets
    have hcell := cell?_tableOf g p instances hcount hs hpos
    rwa [classOf_merge_eoi] at hcell
  · rw [(hclass c hc).2]
    exact Nat.succ_ne_zero _
  · rw [(hclass c hc).2, hclasses]
    exact Nat.succ_lt_succ (List.idxOf_lt_length_of_mem (hclass c hc).1)
  · exact Option.some.inj ((hchar s hs c hc).symm.trans (hsame ▸ hchar s hs d hd))
  · -- the columns are equal, number by number
    have hcolumn : p.column (p.alphabet.classOf c) = p.column (p.alphabet.classOf d) := by
      refine List.map_congr_left fun s hs => ?_
      rw [value, value, hsame s (List.mem_range.mp hs)]
    rw [(hclass c hc).2, (hclass d hd).2, hcolumn]

include halphabet in
/-- **The table of a plan lists every code point once.** -/
theorem Plan.listed_tableOf : (tableOf g p p.matcher.cells instances).Listed := by
  have htiles : Tiles (fun c => p.merge.classOf.getD (p.alphabet.classOf c) 0) 128
      (tableOf g p p.matcher.cells instances).classRanges := by
    have htiles := (Alphabet.covers sets).tiles p.merge
    rwa [← halphabet, ← classRanges_eq] at htiles
  have hapart : Apart (tableOf g p p.matcher.cells instances).classRanges :=
    apart_classRanges p.alphabet p.merge
  have hclass : ∀ {c : Nat}, c < endMark → (tableOf g p p.matcher.cells instances).classOf c
      = p.merge.classOf.getD (p.alphabet.classOf c) 0 :=
    fun hc => classOf_tableOf g p instances halphabet hc
  have hascii : (tableOf g p p.matcher.cells instances).asciiClasses
      = ((List.range 128).map fun c => p.merge.classOf.getD (p.alphabet.classOf c) 0).toArray := rfl
  refine
    { size_ascii := by simp [hascii]
      ascii := ?_
      range := fun c hlo hc => htiles.existsUnique hlo (Nat.lt_succ_of_le hc)
      bounds := ?_
      classOf_range := ?_
      sorted := htiles.pairwise
      neighbours := ?_ }
  · intro c hc
    rw [hascii, hclass (Nat.lt_trans hc (by decide))]
    simp [hc]
  · intro r hr
    obtain ⟨hlo, hle, hhi, -⟩ := htiles.of_mem r hr
    exact ⟨hlo, hle, Nat.le_of_lt_succ hhi⟩
  · intro r hr c hfirst hlast
    obtain ⟨-, -, hhi, hvalue⟩ := htiles.of_mem r hr
    rw [hclass (Nat.lt_of_le_of_lt hlast hhi), hvalue c hfirst hlast]
  · refine List.isChain_iff_getElem.mpr fun i hi => ?_
    have htouch := List.isChain_iff_getElem.mp htiles.isChain i hi
    exact ⟨htouch, List.isChain_iff_getElem.mp hapart i hi htouch⟩

end Merged

/-! ## 4. Numbers -/

/-- The number of a cell that says what it may. -/
theorem LexTable.Allows.encode_bounds {t : LexTable} {s : Nat} {ends : Bool} {cell : Cell}
    (h : t.Allows s ends cell) (hfirst : t.firstRule = -2 - (t.backtracking.size : Int))
    (hpos : 0 < t.actions) :
    -(2 + t.backtracking.size + t.actions : Int) < cell.encode t.backtracking t.firstRule ∧
      cell.encode t.backtracking t.firstRule < t.states := by
  cases cell with
  | goto next =>
    have := h.1
    simp only [Cell.encode]
    omega
  | backtrack action next =>
    have hle : (t.backtracking.findIdx? fun e => e = (action, next)).getD 0
        ≤ t.backtracking.size := by
      cases hplace : t.backtracking.findIdx? fun e => e = (action, next) with
      | none => exact Nat.zero_le _
      | some i => exact Nat.le_of_lt (Array.findIdx?_eq_some_iff_getElem.mp hplace).1
    simp only [Cell.encode]
    omega
  | accept action =>
    have hlt : action < t.actions := by
      cases action with
      | zero => exact hpos
      | succ r => exact h.2
    simp only [Cell.encode]
    omega
  | invalid =>
    simp only [Cell.encode]
    omega

/-- **The numbers in the table of a plan lie within bounds**, if its automaton stays within its
states and rules. -/
theorem Plan.narrow_tableOf {p : Plan} (g : Grammar) (instances : List InstanceGroup)
    (hgrounded : p.matcher.Grounded g.lexicalRules.size) :
    (tableOf g p p.matcher.cells instances).Narrow := by
  have hactions : (tableOf g p p.matcher.cells instances).actions = g.lexicalRules.size + 1 := by
    simp [LexTable.actions, tableOf]
  have hbounds : ∀ v ∈ (tableOf g p p.matcher.cells instances).transitions,
      ∃ s cell, (tableOf g p p.matcher.cells instances).Allows s true cell ∧
        v = cell.encode (tableOf g p p.matcher.cells instances).backtracking
          (tableOf g p p.matcher.cells instances).firstRule := by
    intro v hv
    have htable : (tableOf g p p.matcher.cells instances).transitions
        = (p.rows.toList.flatMap fun row =>
          p.merge.representatives.map fun k => row.getD k (-1)).toArray := rfl
    rw [htable, List.mem_toArray, List.mem_flatMap] at hv
    obtain ⟨row, hrow, hv⟩ := hv
    obtain ⟨k, -, rfl⟩ := List.mem_map.mp hv
    rw [toList_rows] at hrow
    obtain ⟨s, hs, rfl⟩ := List.mem_map.mp hrow
    rcases Nat.lt_or_ge k p.matcher.classes with hk | hk
    · exact ⟨s, p.matcher.cell p.matcher.mayFail s k, hgrounded.allows rfl rfl hactions
        (List.mem_range.mp hs) fun _ => rfl, getD_row hk⟩
    · exact ⟨s, .invalid, trivial, by simp [row, Array.getD_eq_getD_getElem?, hk, Cell.encode]⟩
  have hpos : 0 < (tableOf g p p.matcher.cells instances).actions := by omega
  refine ⟨rfl, fun v hv => ?_, fun v hv => ?_⟩ <;> obtain ⟨s, cell, hallows, rfl⟩ := hbounds v hv
  · exact (hallows.encode_bounds rfl hpos).1
  · exact (hallows.encode_bounds rfl hpos).2

/-! ## 5. The tables of a grammar -/

/-- A description adds nothing to what the table says. -/
theorem LexTable.lossless_withDebug {t : LexTable} {m : Matcher} {classOf : Nat → Nat}
    (h : t.Compresses m classOf ∧ t.Listed ∧ t.Narrow) (d : Option String) :
    ({ t with debug := d } : LexTable).Compresses m classOf ∧
      ({ t with debug := d } : LexTable).Listed ∧ ({ t with debug := d } : LexTable).Narrow :=
  ⟨{ h.1 with }, { h.2.1 with }, { h.2.2 with }⟩

/-- **Encoding cells and merging classes lose nothing**: the tables of a grammar do what its
automaton does, with as few classes as that takes, every code point has one class, and the numbers
of the cells stay within the bounds that the tables show. -/
theorem build_lossless (g : Grammar) (options : LexOptions) :
    (build g options).1.Compresses (plan g options.maxRepeat).1.matcher
        (plan g options.maxRepeat).1.alphabet.classOf ∧
      (build g options).1.Listed ∧ (build g options).1.Narrow := by
  obtain ⟨compiled, a, base, starts, sets, h⟩ := exists_parts g (Scan.rolesOf g options.maxRepeat)
  have hplan := (Scan.plan_eq g options.maxRepeat).trans h.plan_eq
  have hcount : (plan g options.maxRepeat).1.matcher.classes
      = (plan g options.maxRepeat).1.alphabet.count := by
    rw [hplan]
  have halphabet : (plan g options.maxRepeat).1.alphabet = .of sets := by
    rw [hplan]
  have hgrounded : (plan g options.maxRepeat).1.matcher.Grounded g.lexicalRules.size := by
    have hgrounded := planFor_grounded g (Scan.rolesOf g options.maxRepeat)
    rwa [← Scan.plan_eq, Scan.rolesOf, List.length_map, Array.length_toList] at hgrounded
  obtain ⟨d, hbuild⟩ := Scan.exists_debug g options
  rw [hbuild]
  exact LexTable.lossless_withDebug ⟨Plan.compresses_tableOf halphabet hcount g _,
    Plan.listed_tableOf halphabet g _, Plan.narrow_tableOf g _ hgrounded⟩ d

end GrammarTables.Lexical
