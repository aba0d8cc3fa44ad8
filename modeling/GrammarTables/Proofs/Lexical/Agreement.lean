import GrammarTables.Proofs.Lexical.CodePoints
import GrammarTables.Proofs.Lexical.Failure
/-
# Tables depend on code points only

Two plans may cut the code points into different classes and still do the same at every code
point (`Plan.Agrees`).  Then their tables are equal (`Plan.Agrees.tablesFor_eq`): what is computed
for states is computed from what happens at some code point, backtracking entries and merged
classes are numbered by first occurrences, which come in the order of code points, and touching
ranges of one class are joined.
-/

namespace GrammarTables.Lexical

/-! ## 1. Plans that agree -/

/-- The plans do the same at every code point, where `sets` and `sets'` give their classes. -/
structure Plan.Agrees (p q : Plan) (sets sets' : List CharSet) : Prop where
  alphabet : p.alphabet = .of sets
  alphabet' : q.alphabet = .of sets'
  classes : p.matcher.classes = (Alphabet.of sets).count
  classes' : q.matcher.classes = (Alphabet.of sets').count
  roles : p.roles = q.roles
  dropped : ∀ r, (p.compiled.getD r none).isNone = (q.compiled.getD r none).isNone
  size : p.matcher.dfa.size = q.matcher.dfa.size
  starts : p.matcher.dfa.starts = q.matcher.dfa.starts
  accepts : ∀ s, p.matcher.dfa.acceptsOf s = q.matcher.dfa.acceptsOf s
  step : ∀ s c, c ≤ endMark → p.matcher.dfa.step s ((Alphabet.of sets).classOf c)
    = q.matcher.dfa.step s ((Alphabet.of sets').classOf c)
  excludes : ∀ r c, c ≤ endMark → p.matcher.excludes r ((Alphabet.of sets).classOf c)
    = q.matcher.excludes r ((Alphabet.of sets').classOf c)

/-- The tables for a plan. -/
def tablesFor (g : Grammar) (debug : Bool) (p : Plan) : LexTable :=
  let t := tableOf g p p.matcher.cells (instanceGroups (takenWords g p).1)
  { t with debug := if debug then some (describe g p.matcher.dfa t) else none }

theorem build_fst (g : Grammar) (o : LexOptions) :
    (build g o).1 = tablesFor g o.debug (plan g o.maxRepeat).1 := rfl

/-! ## 2. Numbers of cells by state and class -/

/-- The backtracking entry of a cell. -/
def Cell.fallback? : Cell → Option (Nat × Nat)
  | .backtrack action state => some (action, state)
  | .goto _ | .accept _ | .invalid => none

theorem backtrackEntries_eq (cells : List (List Cell)) :
    backtrackEntries cells = (internAll #[] (cells.flatten.filterMap Cell.fallback?)).2 := by
  unfold backtrackEntries
  congr 3
  funext c
  cases c <;> rfl

namespace Plan

/-- The number of the cell of a state and a class. -/
def value (p : Plan) (s k : Nat) : Int :=
  (p.matcher.cell p.matcher.mayFail s k).encode (backtrackEntries p.matcher.cells)
    (-2 - ((backtrackEntries p.matcher.cells).size : Int))

/-- The numbers of the cells of a state. -/
def row (p : Plan) (s : Nat) : Array Int := ((List.range p.matcher.classes).map (p.value s)).toArray

/-- The numbers of the cells of a class. -/
def column (p : Plan) (k : Nat) : List Int := (List.range p.matcher.dfa.size).map (p.value · k)

theorem toList_rows (p : Plan) : p.rows.toList = (List.range p.matcher.dfa.size).map p.row := by
  simp [rows, Matcher.cells, row, value, Function.comp_def]

theorem getD_row {p : Plan} {s k : Nat} (hk : k < p.matcher.classes) :
    (p.row s).getD k (-1) = p.value s k := by
  simp [row, Array.getD_eq_getD_getElem?, hk]

/-- The columns by classes, from the second class on. -/
theorem columns_eq (p : Plan) : columns p.matcher.classes p.rows
    = (List.range (p.matcher.classes - 1)).map fun k => p.column (k + 1) := by
  unfold columns column
  refine List.map_congr_left fun k hk => ?_
  rw [List.mem_range] at hk
  rw [toList_rows, List.map_map]
  exact List.map_congr_left fun s _ => getD_row (by omega)

/-- The different columns, in the order of their classes. -/
def distinct (p : Plan) : List (List Int) :=
  (internAll #[] (columns p.matcher.classes p.rows)).2.toList

theorem distinct_eq (p : Plan) : p.distinct
    = ((List.range (p.matcher.classes - 1)).map fun k => p.column (k + 1)).eraseDups := by
  rw [distinct, toList_internAll _ (by simp), columns_eq]
  rfl

variable {p : Plan} {sets : List CharSet}

theorem length_representatives (hcount : p.matcher.classes = p.alphabet.count) :
    p.merge.representatives.length = p.distinct.length + 1 := by
  simp [merge, mergeClasses, firstPlaces, distinct, hcount]

/-- The merged class of a class but that of the end of the input. -/
theorem classOf_merge_succ (hcount : p.matcher.classes = p.alphabet.count) {k : Nat}
    (hk : k + 1 < p.matcher.classes) :
    p.merge.classOf.getD (k + 1) 0 = p.distinct.idxOf (p.column (k + 1)) + 1 := by
  have hnumber : (internAll #[] (columns p.matcher.classes p.rows)).1[k]?
      = some (p.distinct.idxOf (p.column (k + 1))) := by
    have hlt : k < p.matcher.classes - 1 := by omega
    have hplace : (columns p.matcher.classes p.rows)[k]? = some (p.column (k + 1)) := by
      rw [columns_eq]
      simp [hlt]
    rw [internAll_fst _ (by simp), List.getElem?_map, hplace]
    rfl
  rw [hcount] at hnumber
  simp [merge, mergeClasses, Array.getD_eq_getD_getElem?, hnumber]

end Plan

/-! ## 3. The same at every code point -/

namespace Plan.Agrees

variable {p q : Plan} {sets sets' : List CharSet} {s c : Nat}

theorem acceptAt (h : Agrees p q sets sets') (hc : c ≤ endMark) :
    p.matcher.acceptAt s ((Alphabet.of sets).classOf c)
      = q.matcher.acceptAt s ((Alphabet.of sets').classOf c) := by
  unfold Matcher.acceptAt
  rw [h.accepts]
  congr 1
  funext r
  rw [h.excludes r c hc]

theorem isStart (h : Agrees p q sets sets') :
    p.matcher.dfa.isStart s = q.matcher.dfa.isStart s := by
  rw [Dfa.isStart, Dfa.isStart, h.starts]

/-- Both classes are that of the end of the input, or neither. -/
theorem isEoi (sets sets' : List CharSet) (hc : c ≤ endMark) : ((Alphabet.of sets).classOf c = eoiClass)
    = ((Alphabet.of sets').classOf c = eoiClass) := by
  rw [Alphabet.classOf_eq_eoiClass hc, Alphabet.classOf_eq_eoiClass hc]

theorem stuckAt (h : Agrees p q sets sets') (hc : c ≤ endMark) :
    p.matcher.stuckAt s ((Alphabet.of sets).classOf c)
      = q.matcher.stuckAt s ((Alphabet.of sets').classOf c) := by
  unfold Matcher.stuckAt
  rw [h.acceptAt hc, h.step s c hc, h.isStart]
  simp only [isEoi sets sets' hc]

theorem silentMove (h : Agrees p q sets sets') (hc : c ≤ endMark) :
    p.matcher.silentMove s ((Alphabet.of sets).classOf c)
      = q.matcher.silentMove s ((Alphabet.of sets').classOf c) := by
  unfold Matcher.silentMove
  rw [h.acceptAt hc, h.step s c hc]

/-- A class of one plan has a property if and only if one of the other has. -/
theorem exists_class_iff (h : Agrees p q sets sets') {P Q : Nat → Prop}
    (hPQ : ∀ c ≤ endMark, P ((Alphabet.of sets).classOf c) ↔ Q ((Alphabet.of sets').classOf c)) :
    (∃ k < p.matcher.classes, P k) ↔ ∃ k < q.matcher.classes, Q k := by
  rw [h.classes, h.classes']
  constructor
  · rintro ⟨k, hk, hP⟩
    obtain ⟨c, hc, rfl⟩ := Alphabet.exists_classOf.mp hk
    exact ⟨_, Alphabet.classOf_lt_count sets' hc, (hPQ c hc).mp hP⟩
  · rintro ⟨k, hk, hQ⟩
    obtain ⟨c, hc, rfl⟩ := Alphabet.exists_classOf.mp hk
    exact ⟨_, Alphabet.classOf_lt_count sets hc, (hPQ c hc).mpr hQ⟩

theorem mayFail (h : Agrees p q sets sets') : p.matcher.mayFail = q.matcher.mayFail := by
  unfold Matcher.mayFail
  simp only [h.size]
  refine Graph.reach_congr (fun t s => ?_) fun s => ?_
  · rw [Matcher.mem_silentPredecessors_iff, Matcher.mem_silentPredecessors_iff, h.size]
    have hmoves := h.exists_class_iff (P := fun k => p.matcher.silentMove s k = some (t, s))
      (Q := fun k => q.matcher.silentMove s k = some (t, s)) fun c hc => by rw [h.silentMove hc]
    rw [hmoves]
  · have hstuck := h.exists_class_iff (P := fun k => p.matcher.stuckAt s k = true)
      (Q := fun k => q.matcher.stuckAt s k = true) fun c hc => by rw [h.stuckAt hc]
    simp only [List.mem_filter, List.any_eq_true, List.mem_range]
    rw [hstuck]

theorem cell (h : Agrees p q sets sets') (hc : c ≤ endMark) :
    p.matcher.cell p.matcher.mayFail s ((Alphabet.of sets).classOf c)
      = q.matcher.cell q.matcher.mayFail s ((Alphabet.of sets').classOf c) := by
  unfold Matcher.cell
  rw [h.step s c hc, h.acceptAt hc, h.mayFail, h.isStart]
  simp only [isEoi sets sets' hc]

/-! ## 4. Numbers and columns -/

/-- The backtracking entries are numbered alike: they are met in the order of code points. -/
theorem entries (h : Agrees p q sets sets') :
    backtrackEntries p.matcher.cells = backtrackEntries q.matcher.cells := by
  have hlist : ∀ m : Matcher, backtrackEntries m.cells = (internAll #[]
      ((List.range m.dfa.size).flatMap fun s => (List.range m.classes).filterMap fun k =>
        (m.cell m.mayFail s k).fallback?)).2 := by
    intro m
    rw [backtrackEntries_eq, Matcher.cells, ← List.flatMap_def, List.filterMap_flatMap]
    simp only [List.filterMap_map, Function.comp_def]
  apply Array.toList_inj.mp
  rw [hlist, hlist, toList_internAll _ (by simp), toList_internAll _ (by simp), h.size]
  refine eraseDups_append_congr rfl (eraseDups_flatMap_congr _ fun s _ => ?_)
  rw [h.classes, h.classes', Alphabet.eraseDups_filterMap_range,
    Alphabet.eraseDups_filterMap_range]
  refine congrArg List.eraseDups (List.filterMap_congr fun c hc => ?_)
  rw [h.cell (mem_codePoints.mp hc)]

theorem value (h : Agrees p q sets sets') (hc : c ≤ endMark) :
    p.value s ((Alphabet.of sets).classOf c) = q.value s ((Alphabet.of sets').classOf c) := by
  unfold Plan.value
  rw [h.cell hc, h.entries]

theorem column (h : Agrees p q sets sets') (hc : c ≤ endMark) :
    p.column ((Alphabet.of sets).classOf c) = q.column ((Alphabet.of sets').classOf c) := by
  unfold Plan.column
  rw [h.size]
  exact List.map_congr_left fun s _ => h.value hc

theorem distinct_eq_left (h : Agrees p q sets sets') : p.distinct
    = ((List.range endMark).map fun c => p.column ((Alphabet.of sets).classOf c)).eraseDups := by
  rw [Plan.distinct_eq, h.classes, Alphabet.eraseDups_map_range]

/-- The same columns, in the same order. -/
theorem distinct (h : Agrees p q sets sets') : p.distinct = q.distinct := by
  rw [h.distinct_eq_left, Plan.distinct_eq, h.classes', Alphabet.eraseDups_map_range]
  refine congrArg List.eraseDups (List.map_congr_left fun c hc => h.column ?_)
  exact Nat.le_of_lt (List.mem_range.mp hc)

/-! ## 5. Merged classes -/

theorem symm (h : Agrees p q sets sets') : Agrees q p sets' sets where
  alphabet := h.alphabet'
  alphabet' := h.alphabet
  classes := h.classes'
  classes' := h.classes
  roles := h.roles.symm
  dropped r := (h.dropped r).symm
  size := h.size.symm
  starts := h.starts.symm
  accepts s := (h.accepts s).symm
  step s c hc := (h.step s c hc).symm
  excludes r c hc := (h.excludes r c hc).symm

theorem count_eq (h : Agrees p q sets sets') : p.matcher.classes = p.alphabet.count := by
  rw [h.classes, h.alphabet]

/-- The merged class of a character is the place of its column. -/
theorem merged_of_lt (h : Agrees p q sets sets') (hc : c < endMark) :
    p.merge.classOf.getD ((Alphabet.of sets).classOf c) 0
      = p.distinct.idxOf (p.column ((Alphabet.of sets).classOf c)) + 1 := by
  obtain ⟨hpos, hlt⟩ := Alphabet.classOf_of_lt sets hc
  obtain ⟨k, hk⟩ := Nat.exists_eq_succ_of_ne_zero (Nat.ne_of_gt hpos)
  rw [hk] at hlt ⊢
  exact Plan.classOf_merge_succ h.count_eq (h.classes ▸ hlt)

theorem merged_endMark (p : Plan) (sets : List CharSet) :
    p.merge.classOf.getD ((Alphabet.of sets).classOf endMark) 0 = eoiClass := by
  rw [Alphabet.classOf_endMark, Plan.classOf_merge_eoi]

/-- **Code points have the same merged class.** -/
theorem merged (h : Agrees p q sets sets') (hc : c ≤ endMark) :
    p.merge.classOf.getD ((Alphabet.of sets).classOf c) 0
      = q.merge.classOf.getD ((Alphabet.of sets').classOf c) 0 := by
  rcases Nat.lt_or_eq_of_le hc with hlt | rfl
  · rw [h.merged_of_lt hlt, h.symm.merged_of_lt hlt, h.distinct, h.column hc]
  · rw [merged_endMark, merged_endMark]

theorem length_representatives (h : Agrees p q sets sets') :
    p.merge.representatives.length = q.merge.representatives.length := by
  rw [Plan.length_representatives h.count_eq, Plan.length_representatives h.symm.count_eq,
    h.distinct]

/-- Every column is that of some character. -/
theorem exists_column (h : Agrees p q sets sets') {col : List Int} (hcol : col ∈ p.distinct) :
    ∃ c < endMark, p.column ((Alphabet.of sets).classOf c) = col := by
  rw [h.distinct_eq_left, List.mem_eraseDups, List.mem_map] at hcol
  exact hcol.imp fun c hc => ⟨List.mem_range.mp hc.1, hc.2⟩

/-- Every merged class is that of some code point. -/
theorem exists_merged (h : Agrees p q sets sets') {j : Nat}
    (hj : j < p.merge.representatives.length) :
    ∃ c ≤ endMark, p.merge.classOf.getD ((Alphabet.of sets).classOf c) 0 = j := by
  rw [Plan.length_representatives h.count_eq] at hj
  cases j with
  | zero => exact ⟨endMark, Nat.le_refl _, merged_endMark p sets⟩
  | succ j =>
    have hlt : j < p.distinct.length := by omega
    have hnodup : p.distinct.Nodup := by
      rw [Plan.distinct_eq]
      exact nodup_eraseDups _
    obtain ⟨c, hc, hcolumn⟩ := h.exists_column (List.getElem_mem hlt)
    refine ⟨c, Nat.le_of_lt hc, ?_⟩
    rw [h.merged_of_lt hc, hcolumn, hnodup.idxOf_getElem]

/-- The merged row has at the merged class of a code point the number of its cell. -/
theorem getElem?_mergedRow (h : Agrees p q sets sets') (hs : s < p.matcher.dfa.size)
    (hc : c ≤ endMark) :
    (p.merge.representatives.map fun k => (p.row s).getD k (-1))[
        p.merge.classOf.getD ((Alphabet.of sets).classOf c) 0]?
      = some (p.value s ((Alphabet.of sets).classOf c)) := by
  have hlt := Alphabet.classOf_lt_count sets hc
  obtain ⟨first, hfirst, hrow⟩ := exists_representative p.rows hlt
  have hmem : p.row s ∈ p.rows := by
    rw [← Array.mem_toList_iff, Plan.toList_rows]
    exact List.mem_map.mpr ⟨s, List.mem_range.mpr hs, rfl⟩
  rw [List.getElem?_map, Plan.merge, h.alphabet, hfirst, Option.map_some, hrow _ hmem,
    Plan.getD_row (h.classes ▸ hlt)]

/-- The merged rows are equal. -/
theorem mergedRow (h : Agrees p q sets sets') (hs : s < p.matcher.dfa.size) :
    (p.merge.representatives.map fun k => (p.row s).getD k (-1))
      = q.merge.representatives.map fun k => (q.row s).getD k (-1) := by
  refine List.ext_getElem? fun j => ?_
  rcases Nat.lt_or_ge j p.merge.representatives.length with hj | hj
  · obtain ⟨c, hc, rfl⟩ := h.exists_merged hj
    rw [h.getElem?_mergedRow hs hc, h.merged hc, h.symm.getElem?_mergedRow (h.size ▸ hs) hc,
      h.value hc]
  · rw [List.getElem?_eq_none (by simpa using hj),
      List.getElem?_eq_none (by simpa [h.length_representatives] using hj)]

/-! ## 6. Tables -/

theorem transitions (h : Agrees p q sets sets') :
    (p.rows.toList.flatMap fun row => p.merge.representatives.map fun k => row.getD k (-1))
      = q.rows.toList.flatMap fun row => q.merge.representatives.map fun k => row.getD k (-1) := by
  rw [Plan.toList_rows, Plan.toList_rows, List.flatMap_map, List.flatMap_map, ← h.size]
  exact List.flatMap_congr fun s hs => h.mergedRow (List.mem_range.mp hs)

theorem asciiClasses (h : Agrees p q sets sets') :
    Lexical.asciiClasses p.alphabet p.merge = Lexical.asciiClasses q.alphabet q.merge := by
  unfold Lexical.asciiClasses
  rw [h.alphabet, h.alphabet']
  refine congrArg List.toArray (List.map_congr_left fun c hc => h.merged ?_)
  exact Nat.le_trans (Nat.le_of_lt (List.mem_range.mp hc)) (by decide)

theorem classRanges (h : Agrees p q sets sets') :
    Lexical.classRanges p.alphabet p.merge = Lexical.classRanges q.alphabet q.merge := by
  rw [h.alphabet, h.alphabet', classRanges_of, classRanges_of]
  refine List.foldr_ext _ _ _ fun c hc ranges => ?_
  have hlt : c < endMark := by
    have hc := (List.mem_range'_1.mp hc).2
    have : 128 ≤ endMark := by decide
    omega
  rw [addCodePoint, addCodePoint, h.merged (Nat.le_of_lt hlt)]

theorem run (h : Agrees p q sets sets') (cs : List Nat) (hcs : ∀ c ∈ cs, c ≤ endMark) : ∀ s,
    p.matcher.dfa.run s (cs.map (Alphabet.of sets).classOf)
      = q.matcher.dfa.run s (cs.map (Alphabet.of sets').classOf) := by
  induction cs with
  | nil => exact fun s => rfl
  | cons c cs ih =>
    intro s
    simp only [List.map_cons, Dfa.run]
    rw [h.step s c (hcs c (by simp))]
    congr 1
    funext t
    exact ih (fun d hd => hcs d (by simp [hd])) t

theorem matchedBy (h : Agrees p q sets sets') (rule : Nat) (states : List Nat) (text : List Char) :
    Lexical.matchedBy p rule states text = Lexical.matchedBy q rule states text := by
  have hrun : ∀ s, p.matcher.dfa.run s (text.map fun c => p.alphabet.classOf c.toNat)
      = q.matcher.dfa.run s (text.map fun c => q.alphabet.classOf c.toNat) := by
    intro s
    have hcodes : ∀ c ∈ text.map Char.toNat, c ≤ endMark := by
      intro c hc
      obtain ⟨x, -, rfl⟩ := List.mem_map.mp hc
      exact Nat.le_of_lt (toNat_lt_endMark x)
    have hword := h.run (text.map Char.toNat) hcodes s
    rw [List.map_map, List.map_map] at hword
    rw [h.alphabet, h.alphabet']
    exact hword
  unfold Lexical.matchedBy
  simp only [hrun, h.starts, h.accepts]

theorem takenWords (h : Agrees p q sets sets') (g : Grammar) :
    Lexical.takenWords g p = Lexical.takenWords g q := by
  have htake : Lexical.takeWord g p = Lexical.takeWord g q := by
    funext taken r rule word
    unfold Lexical.takeWord
    simp only [h.dropped, h.matchedBy]
  unfold Lexical.takenWords
  rw [h.roles, htake]

theorem describe (h : Agrees p q sets sets') (g : Grammar) (t : LexTable) :
    Lexical.describe g p.matcher.dfa t = Lexical.describe g q.matcher.dfa t := by
  unfold Lexical.describe
  simp only [h.size, h.accepts]

theorem tableOf (h : Agrees p q sets sets') (g : Grammar) (instances : List InstanceGroup) :
    Lexical.tableOf g p p.matcher.cells instances = Lexical.tableOf g q q.matcher.cells instances := by
  have htable : ∀ p : Plan, Lexical.tableOf g p p.matcher.cells instances =
      { classes := p.merge.representatives.length
        asciiClasses := Lexical.asciiClasses p.alphabet p.merge
        classRanges := Lexical.classRanges p.alphabet p.merge
        states := p.matcher.dfa.size
        transitions := (p.rows.toList.flatMap fun row =>
          p.merge.representatives.map fun k => row.getD k (-1)).toArray
        stateMap := p.matcher.dfa.starts.toArray
        backtracking := backtrackEntries p.matcher.cells
        firstRule := -2 - ((backtrackEntries p.matcher.cells).size : Int)
        actionSymbol := (g.eoi :: g.lexicalRules.toList.map (·.symbol)).toArray
        actionRule := (none :: (List.range g.lexicalRules.size).map some).toArray
        instances } := fun _ => rfl
  rw [htable, htable, h.length_representatives, h.asciiClasses, h.classRanges, h.size,
    h.transitions, h.starts, h.entries]

/-- **Plans that agree have the same tables.** -/
theorem tablesFor_eq (h : Agrees p q sets sets') (g : Grammar) (debug : Bool) :
    tablesFor g debug p = tablesFor g debug q := by
  unfold tablesFor
  rw [h.takenWords, h.tableOf]
  simp only [h.describe]

end Plan.Agrees

end GrammarTables.Lexical
