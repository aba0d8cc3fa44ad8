import GrammarTables.Proofs.Lexical.Reached
import GrammarTables.Proofs.Scan.MaximalMunch
/-
# Rules that are never matched

A warning tells of each compiled rule that no cell of the tables accepts.  These are the rules that
no scanner ever selects, whatever its lexer state, its text and its place in it
(`unreachable_rules_exact`): what a scanner selects stands in a cell, and for each cell there is a
text that comes to it.  Where the cell stops, so does the scanner.  Where it only remembers the
acceptance, the scanner may fail later, so some text gets stuck and the scanner falls back.
-/

namespace GrammarTables.Scan

open Lexical

/-! ## 1. What a call selects -/

/-- The action that the next call selects by walking, before it looks for words that belong to
other rules. -/
def Scanner.selected? (sc : Scanner) : Option Nat :=
  if sc.done || sc.atEnd then none
  else sc.table.stateMap[sc.state]?.bind fun start =>
    (walk sc.table start 0 0 [] sc.rest).match?.map (·.action)

theorem Scanner.selected?_eq_some {sc : Scanner} {action : Nat} : sc.selected? = some action ↔
    sc.done = false ∧ sc.atEnd = false ∧ ∃ start, sc.table.stateMap[sc.state]? = some start ∧
      ∃ m, (walk sc.table start 0 0 [] sc.rest).match? = some m ∧ m.action = action := by
  unfold selected?
  cases sc.done <;> cases sc.atEnd <;>
    simp [Option.bind_eq_some_iff, Option.map_eq_some_iff]

/-- A call that selects a rule returns a token of that rule, or of one that has taken the word. -/
theorem Scanner.next_of_selected {sc : Scanner} {i : Nat} (h : sc.selected? = some (i + 1)) :
    ∃ token, sc.next.result = .ok (some token) ∧
      token.action = (sc.table.instance? (i + 1) token.text).getD (i + 1) := by
  obtain ⟨hdone, hend, start, hmap, m, hmatch, haction⟩ := selected?_eq_some.mp h
  obtain ⟨sc', hsc, hnext⟩ := next_of_match hdone hend hmap hmatch
  rw [hnext, if_neg (by omega), ← haction, ← hsc]
  exact ⟨_, rfl, rfl⟩

/-- The scanner in a lexer state, at a place in a text. -/
def scannerAt (table : LexTable) (state : Nat) (text : String) (place : Nat) : Scanner :=
  { table
    rest := text.toList.drop place
    position := Position.start.advanceAll (text.toList.take place)
    state }

/-! ## 2. Cells and walks -/

/-- The state that a cell goes on to. -/
def target? : Cell → Option Nat
  | .goto state | .backtrack _ state => some state
  | .accept _ | .invalid => none

section Cells

variable {m : Matcher} {fails : Array Bool} {s k r : Nat}

/-- A cell has the action of a rule where it stops, or where the next state may fail. -/
theorem action?_cell : (m.cell fails s k).action? = some (r + 1) ↔ m.acceptAt s k = some r ∧
    ∀ t, m.dfa.step s k = some t → fails.getD t false = true := by
  unfold Matcher.cell
  cases m.dfa.step s k with
  | none =>
    cases m.acceptAt s k with
    | some r' => simp [Cell.action?]
    | none =>
      simp only [reduceCtorEq, false_and, iff_false]
      split <;> simp [Cell.action?]
  | some t =>
    cases m.acceptAt s k with
    | some r' =>
      by_cases hfails : fails.getD t false = true
      · simp only [hfails, if_true, Cell.action?, Option.some.injEq, Nat.add_right_cancel_iff,
          forall_eq', and_true]
      · simp only [hfails, if_false, Cell.action?, reduceCtorEq, Option.some.injEq, forall_eq',
          and_false]
    | none => simp [Cell.action?]

theorem target?_cell : target? (m.cell fails s k) = m.dfa.step s k := by
  unfold Matcher.cell
  cases m.dfa.step s k with
  | none =>
    cases m.acceptAt s k with
    | some r => rfl
    | none => simp only; split <;> rfl
  | some t =>
    cases m.acceptAt s k with
    | some r => simp only; split <;> rfl
    | none => rfl

theorem cell_of_stuckAt (h : m.stuckAt s k = true) : m.cell fails s k = .invalid := by
  simp only [Matcher.stuckAt, Bool.and_eq_true, Option.isNone_iff_eq_none,
    Bool.not_eq_true'] at h
  obtain ⟨⟨haccept, hstep⟩, hend⟩ := h
  rw [Matcher.cell, hstep, haccept]
  exact if_neg (by rw [hend]; exact Bool.false_ne_true)

/-- Some cell has the action, at once or to fall back to. -/
def HasAction (m : Matcher) (action : Nat) : Prop :=
  ∃ s < m.dfa.size, ∃ k < m.classes, (m.cell m.mayFail s k).action? = some action

end Cells

section Walks

variable {t : LexTable} {m : Matcher} {classOf : Nat → Nat} (ht : Represents t m classOf)
  (hlt : ∀ {s k s' : Nat}, m.dfa.step s k = some s' → s' < m.dfa.size)

include ht hlt in
/-- A walk comes to the state after what it reads. -/
theorem walk_of_at (u : List Char) : ∀ {s s' : Nat} (length bytes : Nat) (marks : List Mark)
    (rest : List Char), s < m.dfa.size → m.At classOf s (u.map Char.toNat) s' →
    ∃ bytes' marks', walk t s length bytes marks (u ++ rest)
      = walk t s' (length + u.length) bytes' marks' rest := by
  induction u with
  | nil =>
    intro s s' length bytes marks rest _ hat
    rw [Matcher.at_nil.mp hat]
    exact ⟨bytes, marks, rfl⟩
  | cons c u ih =>
    intro s s' length bytes marks rest hs hat
    obtain ⟨next, hstep, hat'⟩ := Option.bind_eq_some_iff.mp hat
    have hlength : length + (c :: u).length = length + 1 + u.length := by
      rw [List.length_cons]
      omega
    rw [List.cons_append, walk, ht.char hs (toNat_lt_endMark c), Matcher.cell, hstep, hlength]
    cases m.acceptAt s (classOf c.toNat) with
    | none => exact ih _ _ _ _ (hlt hstep) hat'
    | some r =>
      by_cases hmarked : m.mayFail.getD next false = true
      · simp only [hmarked, if_true]
        exact ih _ _ _ _ (hlt hstep) hat'
      · simp only [hmarked]
        exact ih _ _ _ _ (hlt hstep) hat'

include ht hlt in
/-- A text that gets stuck leaves the marks that there were. -/
theorem walk_of_strands {s : Nat} {text : List Char} (h : m.Strands classOf s text) :
    ∀ (length bytes : Nat) (marks : List Mark), s < m.dfa.size →
      walk t s length bytes marks text = ⟨marks, .stuck⟩ := by
  induction h with
  | atEnd hstuck =>
    intro length bytes marks hs
    rw [walk, ht.eoi hs, cell_of_stuckAt hstuck]
  | atChar rest hstuck =>
    intro length bytes marks hs
    rw [walk, ht.char hs (toNat_lt_endMark _), cell_of_stuckAt hstuck]
  | read haccept hstep _ ih =>
    intro length bytes marks hs
    rw [walk, ht.char hs (toNat_lt_endMark _), Matcher.cell, hstep, haccept]
    exact ih _ _ _ (hlt hstep)

include ht hlt in
/-- **For each cell that has the action of a rule, some walk matches the rule.** -/
theorem exists_match_of_hasAction (h : m.Spelled classOf) (hstart : ∀ {s}, s ∈ m.dfa.starts →
      s < m.dfa.size) {r : Nat} (hcell : HasAction m (r + 1)) :
    ∃ start ∈ m.dfa.starts, ∃ text m', (walk t start 0 0 [] text).match? = some m' ∧
      m'.action = r + 1 := by
  obtain ⟨s, hs, k, hk, hcell⟩ := hcell
  obtain ⟨haccept, hfails⟩ := action?_cell.mp hcell
  obtain ⟨start, hmem, u, hat⟩ := h.reached hs
  -- the text leads to the state, and what follows decides
  suffices ∃ rest, ∀ (length bytes : Nat) (marks : List Mark), ∃ m',
      (walk t s length bytes marks rest).match? = some m' ∧ m'.action = r + 1 by
    obtain ⟨rest, hrest⟩ := this
    obtain ⟨bytes, marks, hwalk⟩ := walk_of_at ht hlt u 0 0 [] rest (hstart hmem) hat
    exact ⟨start, hmem, u ++ rest, hwalk ▸ hrest _ bytes marks⟩
  cases hstep : m.dfa.step s k with
  | none =>
    have hstop : m.cell m.mayFail s k = .accept (r + 1) := by rw [Matcher.cell, hstep, haccept]
    by_cases heoi : k = eoiClass
    · subst heoi
      refine ⟨[], fun length bytes marks => ⟨⟨r + 1, length, false, false⟩, ?_, rfl⟩⟩
      rw [walk, ht.eoi hs, hstop]
      rfl
    · obtain ⟨c, rfl⟩ := h.char heoi hk
      refine ⟨[c], fun length bytes marks => ⟨⟨r + 1, length, false, false⟩, ?_, rfl⟩⟩
      rw [walk, ht.char hs (toNat_lt_endMark c), hstop]
      rfl
  | some next =>
    have hmarked := hfails next hstep
    have heoi : k ≠ eoiClass := by
      rintro rfl
      rw [h.step_eoi hs] at hstep
      cases hstep
    obtain ⟨c, rfl⟩ := h.char heoi hk
    obtain ⟨rest, hstrands⟩ := h.exists_strands hlt (hlt hstep) hmarked
    refine ⟨c :: rest, fun length bytes marks => ⟨⟨r + 1, length, false, true⟩, ?_, rfl⟩⟩
    rw [walk, ht.char hs (toNat_lt_endMark c), Matcher.cell, hstep, haccept]
    simp only [hmarked, if_true]
    rw [walk_of_strands ht hlt hstrands _ _ _ (hlt hstep)]
    rfl

variable (hclass : ∀ {c : Nat}, c ≤ endMark → classOf c < m.classes)
  (hend : classOf endMark = eoiClass)

/-- The actions of some marks are those of cells. -/
def MarksOfCells (m : Matcher) (marks : List Mark) : Prop :=
  ∀ x ∈ marks, HasAction m x.action

theorem MarksOfCells.cons {marks : List Mark} {s k length bytes action state : Nat}
    (h : MarksOfCells m marks) (hs : s < m.dfa.size) (hk : k < m.classes)
    (hcell : (m.cell m.mayFail s k).action? = some action) :
    MarksOfCells m (⟨length, bytes, action, state⟩ :: marks) :=
  List.forall_mem_cons.mpr ⟨⟨s, hs, k, hk, hcell⟩, h⟩

theorem MarksOfCells.of_stuck {marks : List Mark} {m' : Match} (h : MarksOfCells m marks)
    (hmatch : (Walk.mk marks .stuck).match? = some m') : HasAction m m'.action := by
  obtain ⟨x, hx, rfl⟩ := Option.map_eq_some_iff.mp hmatch
  exact h x (List.mem_of_mem_head? hx)

include ht hclass hend in
theorem hasAction_of_afterEnd {s length : Nat} {marks : List Mark} {m' : Match}
    (hs : s < m.dfa.size) (hmarks : MarksOfCells m marks)
    (hmatch : (Walk.mk marks (afterEnd t s length)).match? = some m') :
    HasAction m m'.action := by
  have heoi : eoiClass < m.classes := hend ▸ hclass (Nat.le_refl _)
  rw [afterEnd, ht.eoi hs] at hmatch
  cases hcell : m.cell m.mayFail s eoiClass with
  | goto | invalid =>
    rw [hcell] at hmatch
    exact hmarks.of_stuck hmatch
  | backtrack | accept =>
    rw [hcell] at hmatch
    cases hmatch
    exact ⟨s, hs, eoiClass, heoi, by rw [hcell]; rfl⟩

include ht hlt hclass hend in
/-- **What a walk matches has its action from a cell.** -/
theorem hasAction_of_match (v : List Char) : ∀ {s : Nat} (length bytes : Nat) {marks : List Mark}
    {m' : Match}, s < m.dfa.size → MarksOfCells m marks →
    (walk t s length bytes marks v).match? = some m' →
    HasAction m m'.action := by
  have hnext : ∀ {s k next : Nat}, target? (m.cell m.mayFail s k) = some next →
      next < m.dfa.size := by
    intro s k next h
    rw [target?_cell] at h
    exact hlt h
  induction v with
  | nil =>
    intro s length bytes marks m' hs hmarks hmatch
    have heoi : eoiClass < m.classes := hend ▸ hclass (Nat.le_refl _)
    rw [walk, ht.eoi hs] at hmatch
    cases hcell : m.cell m.mayFail s eoiClass with
    | goto next =>
      rw [hcell] at hmatch
      exact hasAction_of_afterEnd ht hclass hend (hnext (by rw [hcell]; rfl)) hmarks hmatch
    | backtrack action next =>
      rw [hcell] at hmatch
      exact hasAction_of_afterEnd ht hclass hend (hnext (by rw [hcell]; rfl))
        (hmarks.cons hs heoi (by rw [hcell]; rfl)) hmatch
    | accept action =>
      rw [hcell] at hmatch
      cases hmatch
      exact ⟨s, hs, eoiClass, heoi, by rw [hcell]; rfl⟩
    | invalid =>
      rw [hcell] at hmatch
      exact hmarks.of_stuck hmatch
  | cons c v ih =>
    intro s length bytes marks m' hs hmarks hmatch
    have hk : classOf c.toNat < m.classes := hclass (Nat.le_of_lt (toNat_lt_endMark c))
    rw [walk, ht.char hs (toNat_lt_endMark c)] at hmatch
    cases hcell : m.cell m.mayFail s (classOf c.toNat) with
    | goto next =>
      rw [hcell] at hmatch
      exact ih _ _ (hnext (by rw [hcell]; rfl)) hmarks hmatch
    | backtrack action next =>
      rw [hcell] at hmatch
      exact ih _ _ (hnext (by rw [hcell]; rfl)) (hmarks.cons hs hk (by rw [hcell]; rfl)) hmatch
    | accept action =>
      rw [hcell] at hmatch
      cases hmatch
      exact ⟨s, hs, _, hk, by rw [hcell]; rfl⟩
    | invalid =>
      rw [hcell] at hmatch
      exact hmarks.of_stuck hmatch

end Walks

/-! ## 3. Findings -/

theorem mem_winners {m : Matcher} {r : Nat} : r ∈ winners m.cells ↔ HasAction m (r + 1) := by
  simp only [winners, Matcher.cells, HasAction, List.mem_filterMap, List.mem_eraseDups,
    List.mem_flatten, List.mem_map, List.mem_range]
  constructor
  · rintro ⟨action, ⟨cell, ⟨_, ⟨s, hs, rfl⟩, hcell⟩, haction⟩, hr⟩
    obtain ⟨k, hk, rfl⟩ := List.mem_map.mp hcell
    split at hr
    · cases hr
    · obtain rfl : action - 1 = r := Option.some.inj hr
      refine ⟨s, hs, k, List.mem_range.mp hk, ?_⟩
      rw [haction, Nat.sub_add_cancel (Nat.pos_of_ne_zero ‹_›)]
  · rintro ⟨s, hs, k, hk, haction⟩
    refine ⟨r + 1, ⟨_, ⟨_, ⟨s, hs, rfl⟩, ?_⟩, haction⟩, by simp⟩
    exact List.mem_map.mpr ⟨k, List.mem_range.mpr hk, rfl⟩

/-- The warning for a rule that is never matched. -/
structure NeverMatched (g : Grammar) (i : Nat) (d : Diagnostic) : Prop where
  severity : d.severity = .warning
  kind : d.kind = .unreachableRule
  message : d.message = s!"lexical rule `{ruleNameAt g i}' is never matched" ∨
    ∃ j, d.message =
      s!"lexical rule `{ruleNameAt g i}' is never matched, `{ruleNameAt g j}' always wins"
  anchors : d.anchors = (ruleOriginAt g i).toList

theorem forall₂_filterMap {R : Nat → Diagnostic → Prop} {p : Nat → Bool}
    {f : Nat → Option Diagnostic} (hsome : ∀ i, p i = true → ∃ d, f i = some d ∧ R i d)
    (hnone : ∀ i, p i = false → f i = none) (is : List Nat) :
    List.Forall₂ R (is.filter p) (is.filterMap f) := by
  induction is with
  | nil => exact .nil
  | cons i is ih =>
    cases hp : p i with
    | true =>
      obtain ⟨d, hd, hR⟩ := hsome i hp
      rw [List.filter_cons_of_pos hp, List.filterMap_cons_some hd]
      exact .cons hR ih
    | false =>
      rw [List.filter_cons_of_neg (by simp [hp]), List.filterMap_cons_none (hnone i hp)]
      exact ih

/-- The rules of the automaton that no cell accepts. -/
def losers (p : Plan) : List Nat :=
  (List.range p.compiled.size).filter fun i =>
    !((p.compiled.getD i none).isNone || (winners p.matcher.cells).contains i)

/-- There is one warning for each of them. -/
theorem forall₂_losers (g : Grammar) (p : Plan) :
    List.Forall₂ (NeverMatched g) (losers p) (unreachableFindings g p p.matcher.cells) := by
  refine forall₂_filterMap (fun i hi => ?_) (fun i hi => ?_) _
  · rw [Bool.not_eq_true'] at hi
    simp only [hi, Bool.false_eq_true, if_false]
    refine ⟨_, rfl, rfl, rfl, ?_, ?_⟩
    · simp only [Diagnostic.warning]
      split
      · exact Or.inr ⟨_, rfl⟩
      · exact Or.inl rfl
    · simp only [Diagnostic.warning]
      cases ruleOriginAt g i <;> rfl
  · rw [Bool.not_eq_false'] at hi
    simp only [hi, if_true]

theorem kind_of_mem_plan {g : Grammar} {limit : Nat} {d : Diagnostic}
    (h : d ∈ (plan g limit).2) : d.kind = .structural := by
  have hrole : ∀ r : LexicalRule, ∀ d ∈ (roleOf g (patternTable g).1 limit r).2,
      d.kind = .structural := by
    intro r d hd
    unfold roleOf at hd
    simp only at hd
    split at hd
    · simp at hd
    · split at hd
      · rw [List.mem_singleton.mp hd]
        rfl
      · split at hd
        · split at hd
          · simp at hd
          · rw [List.mem_singleton.mp hd]
            rfl
        · split at hd
          · simp at hd
          · rw [List.mem_singleton.mp hd]
            rfl
  rcases List.mem_append.mp h with h | h
  · obtain ⟨p, -, rfl⟩ := List.mem_map.mp h
    rfl
  · obtain ⟨result, hresult, hd⟩ := List.mem_flatMap.mp h
    obtain ⟨r, -, rfl⟩ := List.mem_map.mp hresult
    exact hrole r d hd

theorem kind_of_mem_takenWords {g : Grammar} {p : Plan} {d : Diagnostic}
    (h : d ∈ (takenWords g p).2) : d.kind = .structural ∨ d.kind = .lexicalAmbiguity := by
  have htake : ∀ taken r rule word, ∀ d ∈ (takeWord g p taken r rule word).2,
      d.kind = .structural ∨ d.kind = .lexicalAmbiguity := by
    intro taken r rule word d hd
    unfold takeWord at hd
    split at hd
    · simp at hd
    · simp only at hd
      split at hd
      · rw [List.mem_singleton.mp hd]
        exact Or.inl rfl
      · split at hd
        · rw [List.mem_singleton.mp hd]
          exact Or.inl rfl
        · split at hd
          · rw [List.mem_singleton.mp hd]
            exact Or.inr rfl
          · simp at hd
  unfold takenWords at h
  refine List.foldlRecOn (motive := fun acc : List TakenWord × List Diagnostic =>
    ∀ d ∈ acc.2, d.kind = .structural ∨ d.kind = .lexicalAmbiguity) _ _ (by simp) ?_ d h
  rintro ⟨taken, ds⟩ hds ⟨⟨rule, role⟩, r⟩ - d hd
  cases role with
  | dropped => exact hds d hd
  | matched e => exact hds d hd
  | word text =>
    rcases List.mem_append.mp hd with hd | hd
    · exact hds d hd
    · exact htake taken r rule text d hd

theorem kind_of_mem_emptyMatchFindings {g : Grammar} {p : Plan} {d : Diagnostic}
    (h : d ∈ emptyMatchFindings g p) : d.kind = .emptyMatch := by
  obtain ⟨r, -, rfl⟩ := List.mem_map.mp h
  rfl

theorem kind_of_mem_ambiguityFindings {g : Grammar} {p : Plan} {d : Diagnostic}
    (h : d ∈ ambiguityFindings g p) : d.kind = .lexicalAmbiguity := by
  obtain ⟨r, -, rfl⟩ := List.mem_map.mp h
  rfl

theorem kind_of_mem_unreachableFindings {g : Grammar} {p : Plan} {d : Diagnostic}
    (h : d ∈ unreachableFindings g p p.matcher.cells) : d.kind = .unreachableRule := by
  have hkind : ∀ {is : List Nat} {ds : List Diagnostic}, List.Forall₂ (NeverMatched g) is ds →
      ∀ d ∈ ds, d.kind = .unreachableRule := by
    intro is ds h
    induction h with
    | nil => simp
    | cons hd _ ih => exact List.forall_mem_cons.mpr ⟨hd.kind, ih⟩
  exact hkind (forall₂_losers g p) d h

/-- The findings of one kind, by the parts of the build that report them. -/
theorem findingsOf_build (kind : Finding) (g : Grammar) (options : LexOptions) :
    findingsOf kind (build g options).2 = findingsOf kind (plan g options.maxRepeat).2
      ++ findingsOf kind (emptyMatchFindings g (plan g options.maxRepeat).1)
      ++ findingsOf kind (ambiguityFindings g (plan g options.maxRepeat).1)
      ++ findingsOf kind (unreachableFindings g (plan g options.maxRepeat).1
        (plan g options.maxRepeat).1.matcher.cells)
      ++ findingsOf kind (takenWords g (plan g options.maxRepeat).1).2 := by
  have hbuild : (build g options).2 = (plan g options.maxRepeat).2
      ++ emptyMatchFindings g (plan g options.maxRepeat).1
      ++ ambiguityFindings g (plan g options.maxRepeat).1
      ++ unreachableFindings g (plan g options.maxRepeat).1
        (plan g options.maxRepeat).1.matcher.cells
      ++ (takenWords g (plan g options.maxRepeat).1).2 := rfl
  rw [hbuild]
  simp only [findingsOf, List.filter_append]

/-- Nothing else is a finding about rules that never win. -/
theorem findingsOf_unreachableRule (g : Grammar) (options : LexOptions) :
    findingsOf .unreachableRule (build g options).2 =
      unreachableFindings g (plan g options.maxRepeat).1
        (plan g options.maxRepeat).1.matcher.cells := by
  rw [findingsOf_build, findingsOf_eq_nil fun d hd => by simp [kind_of_mem_plan hd],
    findingsOf_eq_nil fun d hd => by simp [kind_of_mem_emptyMatchFindings hd],
    findingsOf_eq_nil fun d hd => by simp [kind_of_mem_ambiguityFindings hd],
    findingsOf_eq_self fun d hd => kind_of_mem_unreachableFindings hd,
    findingsOf_eq_nil fun d hd => by rcases kind_of_mem_takenWords hd with h | h <;> simp [h]]
  simp

/-! ## 4. The rules that no scanner selects -/

/-- The rule of an index is one that the automaton matches. -/
def Compiled (g : Grammar) (options : LexOptions) (i : Nat) : Prop :=
  ∃ r e, g.lexicalRules[i]? = some r ∧
    (roleOf g (patternTable g).1 options.maxRepeat r).1 = .matched e

/-- What has been compiled are the rules that the automaton matches. -/
theorem compiled_iff {g : Grammar} {options : LexOptions} {i : Nat} :
    ((plan g options.maxRepeat).1.compiled.getD i none).isNone = false ↔ Compiled g options i := by
  obtain ⟨compiled, a, base, starts, sets, h⟩ := exists_parts g (rolesOf g options.maxRepeat)
  have hgetD : (plan g options.maxRepeat).1.compiled.getD i none = (compiled[i]?).getD none := by
    rw [plan_eq, h.plan_eq, Array.getD_eq_getD_getElem?, List.getElem?_toArray]
  rw [hgetD]
  constructor
  · intro hsome
    cases hi : compiled[i]? with
    | none => simp [hi] at hsome
    | some c =>
      cases c with
      | none => simp [hi] at hsome
      | some c =>
        obtain ⟨e, he, -⟩ := h.lookahead hi
        obtain ⟨r, hr, hrole⟩ := getElem?_rolesOf.mp he
        exact ⟨r, e, hr, hrole⟩
  · rintro ⟨r, e, hr, hrole⟩
    obtain ⟨c, hc⟩ := h.compiled_of (getElem?_rolesOf.mpr ⟨r, hr, hrole⟩)
    rw [hc]
    rfl

theorem mem_losers {g : Grammar} {options : LexOptions} {i : Nat} :
    i ∈ losers (plan g options.maxRepeat).1 ↔ Compiled g options i ∧
      ¬ HasAction (plan g options.maxRepeat).1.matcher (i + 1) := by
  rw [losers, List.mem_filter, Bool.not_eq_true', Bool.or_eq_false_iff, compiled_iff,
    ← mem_winners, ← Bool.not_eq_true, List.contains_iff_mem, List.mem_range]
  constructor
  · exact fun h => h.2
  · intro h
    refine ⟨?_, h⟩
    by_contra hge
    have hnone := compiled_iff.mpr h.1
    rw [Array.getD_eq_getD_getElem?, Array.getElem?_eq_none (Nat.le_of_not_lt hge)] at hnone
    cases hnone

section Selected

variable {g : Grammar} (hg : g.Frozen) {options : LexOptions}

include hg in
/-- What a scanner selects is the action of a cell. -/
theorem hasAction_of_selected {sc : Scanner} (htable : sc.table = (build g options).1)
    {action : Nat} (h : sc.selected? = some action) :
    HasAction (plan g options.maxRepeat).1.matcher action := by
  obtain ⟨-, -, start, hmap, m, hmatch, rfl⟩ := Scanner.selected?_eq_some.mp h
  rw [htable] at hmap hmatch
  obtain ⟨-, hreader⟩ := build_reader g options hg hmap
  rw [plan_eq]
  exact hasAction_of_match (build_represents g options) hreader.step_lt hreader.classes
    hreader.classOf_endMark sc.rest 0 0 hreader.start_lt (by simp [MarksOfCells]) hmatch

include hg in
/-- Without the end of the input, the automaton does not read it. -/
theorem eoiFree_of_mem_rolesOf
    (heoi : ∀ r ∈ g.lexicalRules, ¬ UsesEoi (patternTable g).1 r.regex.root) {limit : Nat}
    {e : RuleExpr} (h : .matched e ∈ rolesOf g limit) : (Expr.seq e.body).EoiFree := by
  obtain ⟨r, hr, hrole⟩ := mem_rolesOf h
  exact eoiFree_of_resolveRule (patternTable_proper hg) (hg.fromText.2 r hr).proper
    (resolveRule_of_roleOf hrole) (heoi r hr)

include hg in
/-- The action of a cell is selected in some lexer state, at the begin of some text. -/
theorem exists_selected (heoi : ∀ r ∈ g.lexicalRules, ¬ UsesEoi (patternTable g).1 r.regex.root)
    (hscalar : ∀ k, k ≠ eoiClass → k < (plan g options.maxRepeat).1.alphabet.count →
      ∃ c : Char, (plan g options.maxRepeat).1.alphabet.classOf c.toNat = k) {r : Nat}
    (h : HasAction (plan g options.maxRepeat).1.matcher (r + 1)) :
    ∃ state text, (scannerAt (build g options).1 state text 0).selected? = some (r + 1) := by
  rw [plan_eq] at h hscalar
  have hgrounded := planFor_grounded g (rolesOf g options.maxRepeat)
  obtain ⟨start, hstart, text, m, hmatch, haction⟩ :=
    exists_match_of_hasAction (build_represents g options) hgrounded.step_lt
      (planFor_spelled (fun e he => eoiFree_of_mem_rolesOf hg heoi he) hscalar) hgrounded.start_lt h
  obtain ⟨state, hstate⟩ := List.mem_iff_getElem?.mp hstart
  refine ⟨state, String.ofList text,
    Scanner.selected?_eq_some.mpr ⟨rfl, rfl, start, ?_, m, ?_, haction⟩⟩
  · exact (congrArg (·[state]?) (build_stateMap g options)).trans (by simpa using hstate)
  · simpa [scannerAt] using hmatch

end Selected

/-- **The warnings about rules that are never matched are exact.**  There is one for each rule of
the automaton that no scanner selects, in whatever lexer state, text and place, and there are no
others. -/
theorem unreachable_rules_exact {g : Grammar} (hg : g.Frozen) (options : LexOptions)
    (heoi : ∀ r ∈ g.lexicalRules, ¬ UsesEoi (patternTable g).1 r.regex.root)
    (hscalar : ∀ k, k ≠ eoiClass → k < (plan g options.maxRepeat).1.alphabet.count →
      ∃ c : Char, (plan g options.maxRepeat).1.alphabet.classOf c.toNat = k) :
    ∃ rules : List Nat, rules.Pairwise (· < ·) ∧
      List.Forall₂ (NeverMatched g) rules (findingsOf .unreachableRule (build g options).2) ∧
      ∀ i, i ∈ rules ↔ Compiled g options i ∧ ∀ state text place,
        (scannerAt (build g options).1 state text place).selected? ≠ some (i + 1) := by
  refine ⟨losers (plan g options.maxRepeat).1, ?_, ?_, fun i => ?_⟩
  · exact List.pairwise_lt_range.filter _
  · rw [findingsOf_unreachableRule]
    exact forall₂_losers g _
  · rw [mem_losers]
    refine and_congr_right fun _ => ⟨?_, ?_⟩
    · intro hno state text place hselected
      refine hno (hasAction_of_selected hg ?_ hselected)
      rfl
    · intro hnever hcell
      obtain ⟨state, text, hselected⟩ := exists_selected hg heoi hscalar hcell
      exact hnever state text 0 hselected

/-! ## 5. A rule in the shadow of another -/

/-- A tree that stands neither for the end of the input nor for a pattern. -/
def isPlain : Regex.Tree → Bool
  | .eoi _ | .expand _ _ => false
  | _ => true

theorem not_usesEoi_of_plain {table : PatternTable} {t : Regex.Tree}
    (h : ∀ x ∈ t.preorder, isPlain x = true) : ¬ UsesEoi table t := by
  rintro (hmem | ⟨hmem, -, -⟩)
  · exact Bool.false_ne_true (h _ hmem)
  · exact Bool.false_ne_true (h _ hmem)

/-- A grammar for a scanner: names, and a keyword that each time loses to the names. -/
def shadowDraft : Draft :=
  { stamp := 0
    symbols := #[{ index := 0, name := eoiName, kind := .terminal },
      { index := 1, name := "name", kind := .terminal },
      { index := 2, name := "keyword", kind := .terminal }]
    states := #[{ name := "initial" }]
    lexicalRules := #[
      { kind := .normal, symbol := 1, regex := (Regex.parse "[a-z]+" none).1, states := [0] },
      { kind := .normal, symbol := 2, regex := (Regex.parse "if" none).1, states := [0] }] }

theorem shadowDraft_reached : shadowDraft.Reached := by
  have hname : (Draft.new 0).addTerminal "name" none none
      = .ok (⟨0, 1⟩, { Draft.new 0 with symbols := shadowDraft.symbols.take 2 }) := by
    cbv
  have hkeyword : { Draft.new 0 with symbols := shadowDraft.symbols.take 2 }.addTerminal "keyword"
        none none
      = .ok (⟨0, 2⟩, { Draft.new 0 with symbols := shadowDraft.symbols }) := by
    cbv
  have hstate : { Draft.new 0 with symbols := shadowDraft.symbols }.addState "initial" none
      = .ok (⟨0, 0⟩, { shadowDraft with lexicalRules := #[] }) := by
    cbv
  have hnames : { shadowDraft with lexicalRules := #[] }.addLexicalRule .normal ⟨0, 1⟩
      (Regex.parse "[a-z]+" none).1 [⟨0, 0⟩] 0 none none
      = .ok (⟨0, 0⟩, { shadowDraft with lexicalRules := shadowDraft.lexicalRules.take 1 }) := by
    cbv
  have hkeywords : { shadowDraft with
        lexicalRules := shadowDraft.lexicalRules.take 1 }.addLexicalRule .normal ⟨0, 2⟩
      (Regex.parse "if" none).1 [⟨0, 0⟩] 0 none none
      = .ok (⟨0, 1⟩, shadowDraft) := by
    cbv
  have hstates := ((Draft.Reached.new 0).terminal hname).terminal hkeyword |>.state hstate
  exact (hstates.lexicalRule (.parse "[a-z]+" none) hnames).lexicalRule (.parse "if" none) hkeywords

theorem shadowDraft_not_usesEoi : ∀ r ∈ shadowDraft.freeze.lexicalRules,
    ¬ UsesEoi (patternTable shadowDraft.freeze).1 r.regex.root := by
  have hplain : ∀ r ∈ shadowDraft.freeze.lexicalRules.toList, ∀ t ∈ r.regex.root.preorder,
      isPlain t = true := by
    decide +kernel
  exact fun r hr => not_usesEoi_of_plain (hplain r (Array.mem_toList_iff.mpr hr))

theorem shadowDraft_scalars (k : Nat) (hk : k ≠ eoiClass)
    (hlt : k < (plan shadowDraft.freeze 1000).1.alphabet.count) :
    ∃ c : Char, (plan shadowDraft.freeze 1000).1.alphabet.classOf c.toNat = k := by
  have hcount : (plan shadowDraft.freeze 1000).1.alphabet.count = 5 := by decide +kernel
  have hclasses : [' ', 'a', 'f', 'i'].map
      (fun c => (plan shadowDraft.freeze 1000).1.alphabet.classOf c.toNat) = [1, 2, 3, 4] := by
    decide +kernel
  have hmem : k ∈ [1, 2, 3, 4] := by
    rw [hcount] at hlt
    simp only [eoiClass] at hk
    simp only [List.mem_cons, List.not_mem_nil, or_false]
    omega
  rw [← hclasses] at hmem
  obtain ⟨c, -, hc⟩ := List.mem_map.mp hmem
  exact ⟨c, hc⟩

/-- The one warning is about the keyword: the names are selected before `a`. -/
theorem unreachable_rules_shadow :
    (findingsOf .unreachableRule (build shadowDraft.freeze {}).2).length = 1 ∧
    ∀ state text place,
      (scannerAt (build shadowDraft.freeze {}).1 state text place).selected? ≠ some 2 := by
  obtain ⟨rules, -, hall, hmem⟩ := unreachable_rules_exact
    ⟨shadowDraft, shadowDraft_reached, rfl⟩ {} shadowDraft_not_usesEoi shadowDraft_scalars
  have hlength : (findingsOf .unreachableRule (build shadowDraft.freeze {}).2).length = 1 := by
    decide +kernel
  have hnames : (scannerAt (build shadowDraft.freeze {}).1 0 "a" 0).selected? = some 1 := by
    decide +kernel
  have hsize : shadowDraft.freeze.lexicalRules.size = 2 := by decide +kernel
  obtain ⟨i, rfl⟩ := List.length_eq_one_iff.mp (hall.length_eq.trans hlength)
  obtain ⟨⟨r, -, hr, -⟩, hnever⟩ := (hmem i).mp (List.mem_singleton.mpr rfl)
  have hlt : i < 2 := hsize ▸ (Array.getElem?_eq_some_iff.mp hr).1
  obtain rfl : i = 1 := by
    have hne : i ≠ 0 := by
      rintro rfl
      exact hnever 0 "a" 0 hnames
    omega
  exact ⟨hlength, hnever⟩

end GrammarTables.Scan
