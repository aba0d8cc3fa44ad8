import GrammarTables.Proofs.Lexical.Words
import GrammarTables.Proofs.Scan.MaximalMunch
/-
# Scanning stays within the tables

A cell refers to states and actions that the table has, a start is never entered again, and it
accepts nothing but the end of the input (`LexTable.Allows`).  Tables that are built from a grammar
are like that, whatever its rules say (`build_reliable`).

A walk through such tables never looks at an entry that is not there (`walk?_eq_some`), and what it
matches is part of the text that is left, or the end of the input where no text is left
(`Match.Fair`).  The walk is checked by a second definition, `walk?`, that gives up at the first
entry that is missing.
-/

namespace GrammarTables.Lexical

/-! ## 1. What cells may say -/

/-- What a cell of the state `s` may say before a character, or before the end of the input. -/
def LexTable.Allows (t : LexTable) (s : Nat) (ends : Bool) : Cell → Prop
  | .goto next => next < t.states ∧ next ∉ t.stateMap
  | .backtrack action next =>
    s ∉ t.stateMap ∧ 0 < action ∧ action < t.actions ∧ next < t.states ∧ next ∉ t.stateMap
  | .accept 0 => s ∈ t.stateMap ∧ ends = true
  | .accept (r + 1) => s ∉ t.stateMap ∧ r + 1 < t.actions
  | .invalid => True

/-- Every cell is there and says what it may, and so is every action. -/
structure LexTable.Reliable (t : LexTable) : Prop where
  actions_pos : 0 < t.actions
  start_lt : ∀ {s : Nat}, s ∈ t.stateMap → s < t.states
  char : ∀ {s : Nat} (c : Char), s < t.states →
    ∃ cell, t.cell? s (t.classOf c.toNat) = some cell ∧ t.Allows s false cell
  eoi : ∀ {s : Nat}, s < t.states → ∃ cell, t.cell? s eoiClass = some cell ∧ t.Allows s true cell
  instance_lt : ∀ {action owner : Nat} {text : String},
    t.instance? action text = some owner → owner < t.actions

/-- The cells of an automaton whose starts are not entered again. -/
theorem Matcher.Grounded.allows {m : Matcher} {rules : Nat} (h : m.Grounded rules) {t : LexTable}
    (hstates : t.states = m.dfa.size) (hmap : t.stateMap = m.dfa.starts.toArray)
    (hactions : t.actions = rules + 1) {fails : Array Bool} {s k : Nat} {ends : Bool}
    (hs : s < m.dfa.size) (hends : k = eoiClass → ends = true) :
    t.Allows s ends (m.cell fails s k) := by
  have hmem : ∀ {n : Nat}, n ∈ t.stateMap ↔ n ∈ m.dfa.starts := by simp [hmap]
  have hnext : ∀ {n : Nat}, m.dfa.step s k = some n → n < t.states ∧ n ∉ t.stateMap := by
    intro n hstep
    exact ⟨hstates ▸ h.step_lt hstep, fun hn => h.not_start hstep (hmem.mp hn)⟩
  have haccept : ∀ {r : Nat}, m.acceptAt s k = some r → s ∉ t.stateMap ∧ r + 1 < t.actions := by
    intro r haccept
    have hr : r ∈ m.dfa.acceptsOf s := List.mem_of_find?_eq_some haccept
    refine ⟨fun hstart => ?_, by have := h.accepts_lt hs hr; omega⟩
    rw [h.accepts_start (hmem.mp hstart)] at hr
    cases hr
  unfold Matcher.cell
  cases hstep : m.dfa.step s k with
  | some n =>
    cases hr : m.acceptAt s k with
    | some r =>
      simp only
      split
      · exact ⟨(haccept hr).1, Nat.succ_pos r, (haccept hr).2, hnext hstep⟩
      · exact hnext hstep
    | none => exact hnext hstep
  | none =>
    cases hr : m.acceptAt s k with
    | some r => exact haccept hr
    | none =>
      simp only
      split
      · rename_i hstart
        simp only [Bool.and_eq_true, decide_eq_true_eq, Dfa.isStart, List.contains_iff_mem] at hstart
        exact ⟨hmem.mpr hstart.2, hends hstart.1⟩
      · trivial

end GrammarTables.Lexical

namespace GrammarTables.Scan

open Lexical

/-- **Tables that are built from a grammar are reliable**, whatever its rules say. -/
theorem build_reliable (g : Grammar) (options : LexOptions) :
    (build g options).1.Reliable := by
  have hstates : (build g options).1.states =
      (planFor g (rolesOf g options.maxRepeat)).matcher.dfa.size := by
    rw [← plan_eq]
    rfl
  have hactions : (build g options).1.actions = (rolesOf g options.maxRepeat).length + 1 := by
    have htable : (build g options).1.actionSymbol
        = (g.eoi :: g.lexicalRules.toList.map (·.symbol)).toArray := rfl
    simp [LexTable.actions, htable, rolesOf]
  have hmap := build_stateMap g options
  have hgrounded := planFor_grounded g (rolesOf g options.maxRepeat)
  obtain ⟨compiled, a, base, starts, sets, h⟩ := exists_parts g (rolesOf g options.maxRepeat)
  refine
    { actions_pos := by omega
      start_lt := ?_
      char := ?_
      eoi := ?_
      instance_lt := ?_ }
  · intro s hs
    rw [hmap, List.mem_toArray] at hs
    exact hstates ▸ hgrounded.start_lt hs
  · intro s c hs
    rw [hstates] at hs
    have hc := toNat_lt_endMark c
    refine ⟨_, (build_cell? g options hs).1 hc, hgrounded.allows hstates hmap hactions hs ?_⟩
    intro hk
    rw [h.plan_eq] at hk
    exact absurd hk (Nat.ne_of_gt (Alphabet.classOf_of_lt sets hc).1)
  · intro s hs
    rw [hstates] at hs
    exact ⟨_, (build_cell? g options hs).2, hgrounded.allows hstates hmap hactions hs fun _ => rfl⟩
  · intro action owner text howner
    obtain ⟨w, hw, -, -, rfl⟩ := instance?_eq_some rfl howner
    obtain ⟨rule, -, hrule, -⟩ := mem_takenWords hw
    have hlt := (Array.getElem?_eq_some_iff.mp hrule).1
    have hlength : (rolesOf g options.maxRepeat).length = g.lexicalRules.size := by simp [rolesOf]
    omega

/-- The tables have a start for every lexer state. -/
theorem lt_size_stateMap (g : Grammar) (options : LexOptions) {q : Nat} (hq : q < g.states.size) :
    q < (build g options).1.stateMap.size := by
  obtain ⟨compiled, a, base, starts, sets, h⟩ := exists_parts g (rolesOf g options.maxRepeat)
  obtain ⟨start, hstart⟩ := h.exists_start hq
  rw [build_stateMap, h.plan_eq, List.size_toArray]
  exact (List.getElem?_eq_some_iff.mp hstart).1

/-! ## 2. Walks -/

/-- The end of a walk that has read the end of the input, if the table has the cell. -/
def afterEnd? (t : LexTable) (state length : Nat) : Option Ending :=
  (t.cell? state eoiClass).map fun
    | .accept action | .backtrack action _ => .accepted action length true
    | .goto _ | .invalid => .stuck

/-- Walks from a state over the rest of the text, as long as the table has the cells. -/
def walk? (t : LexTable) (state length bytes : Nat) (marks : List Mark) : List Char → Option Walk
  | [] =>
    (t.cell? state eoiClass).bind fun
      | .goto next => (afterEnd? t next length).map (⟨marks, ·⟩)
      | .backtrack action next =>
        (afterEnd? t next length).map (⟨⟨length, bytes, action, state⟩ :: marks, ·⟩)
      | .accept action => some ⟨marks, .accepted action length false⟩
      | .invalid => some ⟨marks, .stuck⟩
  | c :: rest =>
    (t.cell? state (t.classOf c.toNat)).bind fun
      | .goto next => walk? t next (length + 1) (bytes + c.utf8Size) marks rest
      | .backtrack action next =>
        walk? t next (length + 1) (bytes + c.utf8Size) (⟨length, bytes, action, state⟩ :: marks) rest
      | .accept action => some ⟨marks, .accepted action length false⟩
      | .invalid => some ⟨marks, .stuck⟩

/-- What a match in a text of `n` characters is like: only at the end of the input it can be
empty. -/
structure Match.Fair (t : LexTable) (n : Nat) (m : Match) : Prop where
  length_le : m.length ≤ n
  action_lt : m.action < t.actions
  eoi : m.action = 0 → n = 0
  moves : m.action ≠ 0 → 0 < m.length ∨ m.atEnd = true
  atEnd : m.atEnd = true → m.length = n

/-- What a mark is like after `n` characters: the text is not empty. -/
structure Mark.Fair (t : LexTable) (n : Nat) (m : Mark) : Prop where
  length_pos : 0 < m.length
  length_le : m.length ≤ n
  action_pos : 0 < m.action
  action_lt : m.action < t.actions

theorem Mark.Fair.mono {t : LexTable} {n n' : Nat} {m : Mark} (h : m.Fair t n) (hle : n ≤ n') :
    m.Fair t n' :=
  { h with length_le := Nat.le_trans h.length_le hle }

/-- A walk that comes to nothing falls back to a mark. -/
theorem fair_of_marks {t : LexTable} {n : Nat} {marks : List Mark}
    (hmarks : ∀ m ∈ marks, m.Fair t n) {m : Match}
    (hm : Walk.match? ⟨marks, .stuck⟩ = some m) : m.Fair t n := by
  obtain ⟨mark, hmark, rfl⟩ := Option.map_eq_some_iff.mp hm
  have hfair := hmarks mark (List.mem_of_mem_head? hmark)
  exact
    { length_le := hfair.length_le
      action_lt := hfair.action_lt
      eoi := fun h0 => absurd h0 (Nat.ne_of_gt hfair.action_pos)
      moves := fun _ => Or.inl hfair.length_pos
      atEnd := fun h => absurd h Bool.false_ne_true }

section Walk

variable {t : LexTable} (h : t.Reliable)

include h in
/-- After the end of the input there is nothing to read, so the walk accepts a rule or is stuck. -/
theorem afterEnd?_eq_some {s n : Nat} (hs : s < t.states) (hstart : s ∉ t.stateMap)
    {marks : List Mark} (hmarks : ∀ m ∈ marks, m.Fair t n) :
    afterEnd? t s n = some (afterEnd t s n) ∧
      ∀ m, Walk.match? ⟨marks, afterEnd t s n⟩ = some m → m.Fair t n := by
  obtain ⟨cell, hcell, hallows⟩ := h.eoi hs
  have haccept : ∀ {action : Nat}, 0 < action → action < t.actions →
      ∀ m, Walk.match? ⟨marks, .accepted action n true⟩ = some m → m.Fair t n := by
    intro action hpos hlt m hm
    obtain rfl := Option.some.inj hm
    exact ⟨Nat.le_refl n, hlt, fun h0 => absurd h0 (Nat.ne_of_gt hpos), fun _ => Or.inr rfl,
      fun _ => rfl⟩
  unfold afterEnd? afterEnd
  rw [hcell, LexTable.cell_of_cell? hcell]
  cases cell with
  | goto next => exact ⟨rfl, fun m hm => fair_of_marks hmarks hm⟩
  | backtrack action next => exact ⟨rfl, haccept hallows.2.1 hallows.2.2.1⟩
  | accept action =>
    cases action with
    | zero => exact absurd hallows.1 hstart
    | succ r => exact ⟨rfl, haccept (Nat.succ_pos r) hallows.2⟩
  | invalid => exact ⟨rfl, fun m hm => fair_of_marks hmarks hm⟩

theorem fair_of_accept {s n k : Nat} (hs : s ∈ t.stateMap ↔ n = 0) {ends : Bool} {action : Nat}
    (hallows : t.Allows s ends (.accept action)) (hpos : 0 < t.actions)
    (hends : ends = true → k = 0) {marks : List Mark} {m : Match}
    (hm : Walk.match? ⟨marks, .accepted action n false⟩ = some m) : m.Fair t (n + k) := by
  obtain rfl := Option.some.inj hm
  cases action with
  | zero =>
    have hn := hs.mp hallows.1
    have hk := hends hallows.2
    exact ⟨Nat.le_add_right n k, hpos, fun _ => by omega, fun h0 => absurd rfl h0,
      fun h => absurd h Bool.false_ne_true⟩
  | succ r =>
    have hn : n ≠ 0 := fun hn => hallows.1 (hs.mpr hn)
    exact ⟨Nat.le_add_right n k, hallows.2, fun h0 => absurd h0 (Nat.succ_ne_zero r),
      fun _ => Or.inl (Nat.pos_of_ne_zero hn), fun h => absurd h Bool.false_ne_true⟩

/-- A new mark behind the others. -/
theorem fair_of_backtrack {s n bytes : Nat} (hs : s ∈ t.stateMap ↔ n = 0) {ends : Bool}
    {action next : Nat} (hallows : t.Allows s ends (.backtrack action next)) {marks : List Mark}
    (hmarks : ∀ m ∈ marks, m.Fair t n) :
    ∀ m ∈ ⟨n, bytes, action, s⟩ :: marks, m.Fair t n := by
  intro m hm
  rcases List.mem_cons.mp hm with rfl | hm
  · have hn : n ≠ 0 := fun hn => hallows.1 (hs.mpr hn)
    exact ⟨Nat.pos_of_ne_zero hn, Nat.le_refl n, hallows.2.1, hallows.2.2.1⟩
  · exact hmarks m hm

include h in
/-- **A walk stays within the tables**, and its match is fair. -/
theorem walk?_eq_some (v : List Char) : ∀ {s n bytes : Nat} {marks : List Mark}, s < t.states →
    (s ∈ t.stateMap ↔ n = 0) → (∀ m ∈ marks, m.Fair t n) →
    walk? t s n bytes marks v = some (walk t s n bytes marks v) ∧
      ∀ m, (walk t s n bytes marks v).match? = some m → m.Fair t (n + v.length) := by
  induction v with
  | nil =>
    intro s n bytes marks hs hstart hmarks
    obtain ⟨cell, hcell, hallows⟩ := h.eoi hs
    unfold walk? walk
    rw [hcell, LexTable.cell_of_cell? hcell, Option.bind_some]
    cases cell with
    | goto next =>
      obtain ⟨hchecked, hfair⟩ := afterEnd?_eq_some h hallows.1 hallows.2 hmarks
      exact ⟨by simp only [hchecked, Option.map_some], hfair⟩
    | backtrack action next =>
      obtain ⟨hchecked, hfair⟩ := afterEnd?_eq_some h hallows.2.2.2.1 hallows.2.2.2.2
        (@fair_of_backtrack _ _ _ bytes hstart _ _ _ hallows _ hmarks)
      exact ⟨by simp only [hchecked, Option.map_some], hfair⟩
    | accept action =>
      exact ⟨rfl, fun m hm => fair_of_accept hstart hallows h.actions_pos (fun _ => rfl) hm⟩
    | invalid => exact ⟨rfl, fun m hm => fair_of_marks hmarks hm⟩
  | cons c v ih =>
    intro s n bytes marks hs hstart hmarks
    obtain ⟨cell, hcell, hallows⟩ := h.char c hs
    have hlength : n + (c :: v).length = n + 1 + v.length := by
      rw [List.length_cons]
      omega
    unfold walk? walk
    rw [hcell, LexTable.cell_of_cell? hcell, Option.bind_some, hlength]
    -- the next state is not a start, and something has been read
    have hread : ∀ {next : Nat}, next ∉ t.stateMap → (next ∈ t.stateMap ↔ n + 1 = 0) :=
      fun hnext => ⟨fun hn => absurd hn hnext, fun hn => absurd hn (Nat.succ_ne_zero n)⟩
    cases cell with
    | goto next =>
      exact ih hallows.1 (hread hallows.2) fun m hm => (hmarks m hm).mono (Nat.le_succ n)
    | backtrack action next =>
      have hmarks' := @fair_of_backtrack _ _ _ bytes hstart _ _ _ hallows _ hmarks
      exact ih hallows.2.2.2.1 (hread hallows.2.2.2.2)
        fun m hm => (hmarks' m hm).mono (Nat.le_succ n)
    | accept action =>
      refine ⟨rfl, fun m hm => ?_⟩
      rw [Nat.add_assoc]
      exact fair_of_accept hstart hallows h.actions_pos (fun h => absurd h Bool.false_ne_true) hm
    | invalid =>
      exact ⟨rfl, fun m hm => fair_of_marks (fun m hm => (hmarks m hm).mono (by omega)) hm⟩

end Walk

end GrammarTables.Scan
