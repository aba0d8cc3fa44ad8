import GrammarTables.Lr.Build
import GrammarTables.Proofs.Lr.Lookahead
/-
# Parser tables: what their entries say

Every entry of the tables is read off the automaton (`ParseTable.Serves`): a shift follows it, a
reduction or an acceptance belongs to an item that is complete before the terminal, and there is an
error only where there is neither.  A state with a default reduction does nothing else.  Without
priorities and conflicts each entry is the only one the automaton allows (`ParseTable.Settled`).

An entry depends on the least production that may be reduced and on the shift (`entry_of_none`,
`entry_of_reduce`, `entry_of_input`, `entry_of_rule`), and records the conflicts that these leave
(`mem_entry`).
-/

namespace GrammarTables.Lr

/-! ## 1. Entries -/

namespace Policy

variable {policy : Policy} {s x winner u : Nat} {shift : Option Nat} {rules : List Nat}

/-- How a conflict between a rule and the shift of a terminal is settled. -/
def outcome (policy : Policy) (rule x : Nat) : ShiftReduce :=
  resolveShiftReduce (policy.rulePrecedence rule) (policy.terminalPrecedence x)

/-- The conflict between several productions, if there are several. -/
def several (s x : Nat) (rules : List Nat) : List Conflict :=
  if 1 < rules.length then [⟨s, x, .reduceReduce, rules⟩] else []

/-- The entry where no production may be reduced. -/
theorem entry_of_none (h : resolveReduceReduce rules = none) :
    policy.entry s x shift rules = (shift.elim .error .shift, []) := by
  cases shift <;> simp only [entry, h] <;> rfl

/-- The entry where the terminal is not shifted. -/
theorem entry_of_reduce (h : resolveReduceReduce rules = some winner) :
    policy.entry s x none rules = (policy.reduceAction winner, several s x rules) := by
  simp only [entry, h]
  rfl

/-- The entry where an input may be accepted and the terminal shifted. -/
theorem entry_of_input (h : resolveReduceReduce rules = some winner)
    (hwinner : policy.rules ≤ winner) :
    policy.entry s x (some u) rules = (.shift u, several s x rules) := by
  simp only [entry, h, if_pos hwinner]
  rfl

/-- The entry where a rule may be reduced and the terminal shifted. -/
theorem entry_of_rule (h : resolveReduceReduce rules = some winner)
    (hwinner : winner < policy.rules) : policy.entry s x (some u) rules =
    match policy.outcome winner x with
    | .shift => (.shift u, several s x rules)
    | .reduce => (.reduce winner, several s x rules)
    | .nonAssoc =>
      (.reduce winner, several s x rules ++ [⟨s, x, .shiftReduce .nonAssoc, [winner]⟩])
    | .shiftByDefault =>
      (.shift u, several s x rules ++ [⟨s, x, .shiftReduce .shiftByDefault, [winner]⟩]) := by
  simp only [entry, h, if_neg (Nat.not_le.mpr hwinner), outcome]
  cases resolveShiftReduce (policy.rulePrecedence winner) (policy.terminalPrecedence x) <;> rfl

/-- What an entry can be. -/
theorem entry_cases (policy : Policy) (s x : Nat) (shift : Option Nat) (rules : List Nat) :
    (policy.entry s x shift rules).1 = .error ∧ shift = none ∧ rules = [] ∨
    (∃ t, (policy.entry s x shift rules).1 = .shift t ∧ shift = some t) ∨
    (∃ r ∈ rules, (policy.entry s x shift rules).1 = .reduce r ∧ r < policy.rules) ∨
    ∃ r ∈ rules, (policy.entry s x shift rules).1 = .accept ∧ policy.rules ≤ r ∧ shift = none := by
  cases hmin : resolveReduceReduce rules with
  | none =>
    rw [entry_of_none hmin]
    cases shift with
    | none => exact Or.inl ⟨rfl, rfl, List.min?_eq_none_iff.mp hmin⟩
    | some t => exact Or.inr (Or.inl ⟨t, rfl, rfl⟩)
  | some winner =>
    have hmem := List.min?_mem hmin
    cases shift with
    | none =>
      rw [entry_of_reduce hmin]
      rcases Nat.lt_or_ge winner policy.rules with hlt | hge
      · exact Or.inr (Or.inr (Or.inl ⟨winner, hmem, if_pos hlt, hlt⟩))
      · exact Or.inr (Or.inr (Or.inr ⟨winner, hmem, if_neg (Nat.not_lt.mpr hge), hge, rfl⟩))
    | some t =>
      rcases Nat.lt_or_ge winner policy.rules with hlt | hge
      · rw [entry_of_rule hmin hlt]
        cases policy.outcome winner x with
        | shift => exact Or.inr (Or.inl ⟨t, rfl, rfl⟩)
        | reduce => exact Or.inr (Or.inr (Or.inl ⟨winner, hmem, rfl, hlt⟩))
        | nonAssoc => exact Or.inr (Or.inr (Or.inl ⟨winner, hmem, rfl, hlt⟩))
        | shiftByDefault => exact Or.inr (Or.inl ⟨t, rfl, rfl⟩)
      · rw [entry_of_input hmin hge]
        exact Or.inr (Or.inl ⟨t, rfl, rfl⟩)

/-- **The conflicts of an entry**: several productions, or a rule and a shift that no precedence
settles. -/
theorem mem_entry {c : Conflict} : c ∈ (policy.entry s x shift rules).2 ↔
    (1 < rules.length ∧ c = ⟨s, x, .reduceReduce, rules⟩) ∨
    ∃ winner, resolveReduceReduce rules = some winner ∧ winner < policy.rules ∧ shift.isSome ∧
      (policy.outcome winner x = .nonAssoc ∧ c = ⟨s, x, .shiftReduce .nonAssoc, [winner]⟩ ∨
        policy.outcome winner x = .shiftByDefault ∧
          c = ⟨s, x, .shiftReduce .shiftByDefault, [winner]⟩) := by
  have hseveral : c ∈ several s x rules ↔ 1 < rules.length ∧ c = ⟨s, x, .reduceReduce, rules⟩ := by
    simp only [several]
    split <;> simp [*]
  rw [← hseveral]
  cases hmin : resolveReduceReduce rules with
  | none =>
    rw [entry_of_none hmin, List.min?_eq_none_iff.mp hmin]
    simp [several]
  | some winner =>
    cases shift with
    | none => simp [entry_of_reduce hmin]
    | some u =>
      rcases Nat.lt_or_ge winner policy.rules with hlt | hge
      · rw [entry_of_rule hmin hlt]
        cases houtcome : policy.outcome winner x <;> simp [hlt, houtcome]
      · simp [entry_of_input hmin hge, Nat.not_lt.mpr hge]

/-- The conflicts of an entry are those of its state and terminal. -/
theorem place_of_mem_entry {c : Conflict} (h : c ∈ (policy.entry s x shift rules).2) :
    c.state = s ∧ c.lookahead = x := by
  rcases mem_entry.mp h with ⟨-, rfl⟩ | ⟨winner, -, -, -, ⟨-, rfl⟩ | ⟨-, rfl⟩⟩
  · exact ⟨rfl, rfl⟩
  · exact ⟨rfl, rfl⟩
  · exact ⟨rfl, rfl⟩

theorem nodup_entry (policy : Policy) (s x : Nat) (shift : Option Nat) (rules : List Nat) :
    (policy.entry s x shift rules).2.Nodup := by
  have hseveral : (several s x rules).Nodup := by
    unfold several
    split <;> simp
  have happend : ∀ (outcome : ShiftReduce) (winner : Nat), (several s x rules ++
      [(⟨s, x, .shiftReduce outcome, [winner]⟩ : Conflict)]).Nodup := fun outcome winner => by
    unfold several
    split <;> simp
  cases hmin : resolveReduceReduce rules with
  | none =>
    rw [entry_of_none hmin]
    exact List.nodup_nil
  | some winner =>
    cases shift with
    | none =>
      rw [entry_of_reduce hmin]
      exact hseveral
    | some u =>
      rcases Nat.lt_or_ge winner policy.rules with hlt | hge
      · rw [entry_of_rule hmin hlt]
        cases policy.outcome winner x with
        | shift => exact hseveral
        | reduce => exact hseveral
        | nonAssoc => exact happend _ _
        | shiftByDefault => exact happend _ _
      · rw [entry_of_input hmin hge]
        exact hseveral

/-- An entry without conflicts, where terminals have no precedences: there are not two productions
to reduce, and not both a shift and a rule. -/
theorem of_entry_settled (hprecedence : policy.terminalPrecedence x = none)
    (h : (policy.entry s x shift rules).2 = []) :
    rules.length ≤ 1 ∧ ∀ t, shift = some t → ∀ r ∈ rules, policy.rules ≤ r := by
  simp only [List.eq_nil_iff_forall_not_mem, mem_entry, not_or] at h
  have hone : rules.length ≤ 1 := Nat.not_lt.mp fun hmany => (h _).1 ⟨hmany, rfl⟩
  refine ⟨hone, ?_⟩
  rintro t rfl r hr
  obtain ⟨y, rfl⟩ := List.length_eq_one_iff.mp (Nat.le_antisymm hone (List.length_pos_of_mem hr))
  obtain rfl := List.mem_singleton.mp hr
  have houtcome : policy.outcome r x = .shiftByDefault := by
    rw [outcome, hprecedence]
    cases policy.rulePrecedence r <;> rfl
  exact Nat.not_lt.mp fun hlt => (h _).2 ⟨r, rfl, hlt, rfl, Or.inr ⟨houtcome, rfl⟩⟩

end Policy

theorem terminalPrecedence_of_no_priorities {g : Grammar} (h : g.priorityList = []) (x : Nat) :
    (policyOf g).terminalPrecedence x = none := by
  simp only [policyOf, terminalPrecedences, h, List.zipIdx_nil, List.foldl_nil]
  rw [Array.getD_eq_getD_getElem?, Array.getElem?_replicate]
  split <;> rfl

/-- A row with a default reduction has that reduction, and errors. -/
theorem defaultOf_eq_some {row : List Action} {r : Nat} (h : defaultOf row = some r) :
    .reduce r ∈ row ∧ ∀ e ∈ row, e = .error ∨ e = .reduce r := by
  unfold defaultOf at h
  split at h
  · rename_i r' rest hfilter
    split at h
    · rename_i hall
      obtain rfl := Option.some.inj h
      rw [List.all_eq_true] at hall
      have hmem : ∀ e : Action, e ∈ row ∧ e ≠ .error ↔ e ∈ .reduce r' :: rest := by
        intro e
        rw [← hfilter, List.mem_filter, decide_eq_true_eq]
      refine ⟨((hmem _).mpr (List.mem_cons_self ..)).1, ?_⟩
      intro e he
      by_cases herror : e = .error
      · exact Or.inl herror
      · rcases List.mem_cons.mp ((hmem e).mp ⟨he, herror⟩) with rfl | he
        · exact Or.inr rfl
        · exact Or.inr (of_decide_eq_true (hall e he))
    · cases h
  · cases h

/-! ## 2. Looking up -/

section TableOf

variable {g : Grammar} {a : Automaton} {rs : Array Reductions} {options : ParseOptions}

/-- The entry that the automaton gives for a state and a terminal. -/
def entryOf (g : Grammar) (rs : Array Reductions) (s : Nat) (st : ItemState) (x : Nat) :
    Action × List Conflict :=
  (policyOf g).entry s x (st.goto? x) (candidates (rs.getD s []) x)

/-- The actions of a state. -/
def actionRow (g : Grammar) (rs : Array Reductions) (s : Nat) (st : ItemState) : List Action :=
  (List.range g.terminals).map fun x => (entryOf g rs s st x).1

theorem map_rowEntries (g : Grammar) (rs : Array Reductions) (s : Nat) (st : ItemState) :
    (rowEntries (policyOf g) g.terminals s st (rs.getD s [])).map (·.1) = actionRow g rs s st := by
  rw [rowEntries, List.map_map]
  rfl

theorem getElem?_zipIdx_states {s : Nat} {st : ItemState} (hs : a.states[s]? = some st) :
    a.states.toList.zipIdx[s]? = some (st, s) := by
  rw [List.getElem?_zipIdx, Array.getElem?_toList, hs, Option.map_some, Nat.zero_add]

theorem actions_tableOf : (tableOf g a rs options).actions =
    (a.states.toList.zipIdx.flatMap fun e => actionRow g rs e.2 e.1).toArray := by
  simp only [tableOf, List.map_map, List.flatMap_def, Function.comp_def, map_rowEntries]

theorem action_tableOf {s x : Nat} {st : ItemState} (hs : a.states[s]? = some st)
    (hx : x < g.terminals) : (tableOf g a rs options).action s x = (entryOf g rs s st x).1 := by
  have hterminals : (tableOf g a rs options).terminals = g.terminals := rfl
  rw [ParseTable.action, actions_tableOf, hterminals, Array.getD_eq_getD_getElem?, List.getElem?_toArray,
    getElem?_flatMap_of_length (n := g.terminals) (by simp [actionRow]) hx,
    getElem?_zipIdx_states hs, Option.bind_some, actionRow, List.getElem?_map,
    List.getElem?_range hx]
  rfl

theorem goto_tableOf {s x : Nat} {st : ItemState} (hs : a.states[s]? = some st)
    (hge : g.terminals ≤ x) (hlt : x < g.grammarSymbols) :
    (tableOf g a rs options).goto s x = st.goto? x := by
  have hgotos : (tableOf g a rs options).gotos = (a.states.toList.zipIdx.flatMap fun e =>
      gotoRow g.terminals g.nonterminals e.1).toArray := rfl
  have hindex : s * g.nonterminals + x - g.terminals = s * g.nonterminals + (x - g.terminals) := by
    omega
  have hx : x - g.terminals < g.nonterminals := by
    rw [Grammar.nonterminals]
    omega
  have hterminals : (tableOf g a rs options).terminals = g.terminals := rfl
  have hnonterminals : (tableOf g a rs options).nonterminals = g.nonterminals := rfl
  rw [ParseTable.goto, hgotos, hterminals, hnonterminals, hindex, Array.getD_eq_getD_getElem?,
    List.getElem?_toArray, getElem?_flatMap_of_length (n := g.nonterminals) (by simp [gotoRow]) hx,
    getElem?_zipIdx_states hs, Option.bind_some, gotoRow, List.getElem?_map,
    List.getElem?_range hx, Option.map_some, Option.getD_some, Nat.add_sub_cancel' hge]

theorem defaults_tableOf : (tableOf g a rs options).defaultReduce =
    (a.states.toList.zipIdx.map fun e =>
      if options.defaultReductions then defaultOf (actionRow g rs e.2 e.1) else none).toArray := by
  simp only [tableOf, List.map_map, Function.comp_def, map_rowEntries]

theorem defaultReduce_tableOf {s : Nat} {st : ItemState} (hs : a.states[s]? = some st) :
    (tableOf g a rs options).defaultReduce.getD s none =
      if options.defaultReductions then defaultOf (actionRow g rs s st) else none := by
  rw [defaults_tableOf, Array.getD_eq_getD_getElem?, List.getElem?_toArray, List.getElem?_map,
    getElem?_zipIdx_states hs, Option.map_some, Option.getD_some]

theorem conflicts_tableOf : (tableOf g a rs options).conflicts =
    a.states.toList.zipIdx.flatMap fun e =>
      (List.range g.terminals).flatMap fun x => (entryOf g rs e.2 e.1 x).2 := by
  simp only [tableOf, List.flatMap_map]
  refine List.flatMap_congr fun e _ => ?_
  rw [rowEntries, List.flatMap_map]
  rfl

/-- The conflicts of tables are those of their entries. -/
theorem mem_conflicts_tableOf {c : Conflict} : c ∈ (tableOf g a rs options).conflicts ↔
    ∃ s st x, a.states[s]? = some st ∧ x < g.terminals ∧ c ∈ (entryOf g rs s st x).2 := by
  simp only [conflicts_tableOf, List.mem_flatMap, List.mem_range, Prod.exists,
    List.mem_zipIdx_iff_getElem?, Array.getElem?_toList]
  exact exists_comm.trans (by simp only [exists_and_left])

/-- No conflict is recorded twice. -/
theorem nodup_conflicts_tableOf : (tableOf g a rs options).conflicts.Nodup := by
  have hentry : ∀ {s x : Nat} {st : ItemState} {c : Conflict}, c ∈ (entryOf g rs s st x).2 →
      c.state = s ∧ c.lookahead = x := fun hc => Policy.place_of_mem_entry hc
  have hstates : (a.states.toList.zipIdx.map (·.2)).Nodup := by
    rw [List.zipIdx_map_snd]
    exact List.nodup_range'
  rw [conflicts_tableOf, List.nodup_flatMap]
  refine ⟨fun e _ => List.nodup_flatMap.mpr ⟨fun x _ => Policy.nodup_entry .., ?_⟩, ?_⟩
  · refine List.nodup_range.imp fun hne c hc hc' => hne ?_
    exact (hentry hc).2.symm.trans (hentry hc').2
  · refine (List.pairwise_map.mp hstates).imp fun hne c hc hc' => hne ?_
    obtain ⟨x, -, hc⟩ := List.mem_flatMap.mp hc
    obtain ⟨x', -, hc'⟩ := List.mem_flatMap.mp hc'
    exact (hentry hc).1.symm.trans (hentry hc').1

/-- Tables have no conflicts if no entry has one. -/
theorem conflicts_tableOf_eq_nil : (tableOf g a rs options).conflicts = [] ↔
    ∀ {s x : Nat} {st : ItemState}, a.states[s]? = some st → x < g.terminals →
      (entryOf g rs s st x).2 = [] := by
  simp only [List.eq_nil_iff_forall_not_mem, mem_conflicts_tableOf]
  exact ⟨fun h s x st hs hx c hc => h c ⟨s, st, x, hs, hx, hc⟩,
    fun h c ⟨s, st, x, hs, hx, hc⟩ => h hs hx c hc⟩

end TableOf

/-! ## 3. What the entries mean -/

/-- A production may be reduced in a state before a terminal. -/
def Completes (p : Productions) (a : Automaton) (inputs : List Input) (s x rule : Nat) : Prop :=
  ∃ i : Item, Ahead p a inputs s i x ∧ i.next? p = none ∧ i.rule = rule

namespace ParseTable

/-- What holds of the tables for an automaton. -/
structure Serves (p : Productions) (a : Automaton) (inputs : List Input) (t : ParseTable) :
    Prop where
  terminals : t.terminals = p.terminals
  starts : ∀ i : Nat, t.startStates[i]? = a.starts[i]?
  ruleLeft : ∀ {rule : Nat}, rule < p.rules → t.ruleLeft.getD rule 0 = p.leftOf rule
  ruleLength : ∀ {rule : Nat}, rule < p.rules →
    t.ruleLength.getD rule 0 = (p.rightOf rule).length
  goto : ∀ {s x : Nat} {st : ItemState}, a.states[s]? = some st → p.terminals ≤ x →
    x < p.symbols → t.goto s x = st.goto? x
  action : ∀ {s x : Nat} {st : ItemState}, a.states[s]? = some st → x < p.terminals →
    t.action s x = .error ∧ st.goto? x = none ∧ (∀ r, ¬ Completes p a inputs s x r) ∨
    (∃ u, t.action s x = .shift u ∧ st.goto? x = some u) ∨
    (∃ r, t.action s x = .reduce r ∧ r < p.rules ∧ Completes p a inputs s x r) ∨
    t.action s x = .accept ∧ st.goto? x = none ∧ ∃ r, p.rules ≤ r ∧ Completes p a inputs s x r
  default : ∀ {s r : Nat} {st : ItemState}, a.states[s]? = some st →
    t.defaultReduce.getD s none = some r →
      (∃ x < p.terminals, t.action s x = .reduce r) ∧
        ∀ x < p.terminals, t.action s x = .error ∨ t.action s x = .reduce r

namespace Serves

variable {p : Productions} {a : Automaton} {inputs : List Input} {t : ParseTable}
  {s x : Nat} {st : ItemState}

theorem of_shift (h : t.Serves p a inputs) (hs : a.states[s]? = some st) (hx : x < p.terminals)
    {u : Nat} (hu : t.action s x = .shift u) : st.goto? x = some u := by
  rcases h.action hs hx with ⟨h, -⟩ | ⟨v, h, hv⟩ | ⟨r, h, -⟩ | ⟨h, -⟩
  · exact absurd (hu.symm.trans h) (by simp)
  · rw [hv, Action.shift.inj (hu.symm.trans h)]
  · exact absurd (hu.symm.trans h) (by simp)
  · exact absurd (hu.symm.trans h) (by simp)

theorem of_reduce (h : t.Serves p a inputs) (hs : a.states[s]? = some st) (hx : x < p.terminals)
    {r : Nat} (hr : t.action s x = .reduce r) : r < p.rules ∧ Completes p a inputs s x r := by
  rcases h.action hs hx with ⟨h, -⟩ | ⟨v, h, -⟩ | ⟨r', h, hr'⟩ | ⟨h, -⟩
  · exact absurd (hr.symm.trans h) (by simp)
  · exact absurd (hr.symm.trans h) (by simp)
  · rwa [Action.reduce.inj (hr.symm.trans h)]
  · exact absurd (hr.symm.trans h) (by simp)

theorem of_accept (h : t.Serves p a inputs) (hs : a.states[s]? = some st) (hx : x < p.terminals)
    (haccept : t.action s x = .accept) : ∃ r, p.rules ≤ r ∧ Completes p a inputs s x r := by
  rcases h.action hs hx with ⟨h, -⟩ | ⟨v, h, -⟩ | ⟨r, h, -⟩ | ⟨-, -, h⟩
  · exact absurd (haccept.symm.trans h) (by simp)
  · exact absurd (haccept.symm.trans h) (by simp)
  · exact absurd (haccept.symm.trans h) (by simp)
  · exact h

theorem ne_error (h : t.Serves p a inputs) (hs : a.states[s]? = some st) (hx : x < p.terminals)
    {r : Nat} (hr : Completes p a inputs s x r) : t.action s x ≠ .error := by
  intro herror
  rcases h.action hs hx with ⟨-, -, h⟩ | ⟨v, h, -⟩ | ⟨r, h, -⟩ | ⟨h, -⟩
  · exact h r hr
  · exact absurd (herror.symm.trans h) (by simp)
  · exact absurd (herror.symm.trans h) (by simp)
  · exact absurd (herror.symm.trans h) (by simp)

end Serves

end ParseTable

/-- The automaton leaves no choice: at most one production may be reduced before a terminal, and a
rule only where the terminal is not shifted. -/
structure Settled (p : Productions) (a : Automaton) (inputs : List Input) : Prop where
  unique : ∀ {s x r r' : Nat}, Completes p a inputs s x r → Completes p a inputs s x r' → r = r'
  goto : ∀ {s x r : Nat} {st : ItemState}, a.states[s]? = some st →
    Completes p a inputs s x r → r < p.rules → st.goto? x = none

namespace ParseTable.Serves

variable {p : Productions} {a : Automaton} {inputs : List Input} {t : ParseTable}
  {s x : Nat} {st : ItemState}

theorem action_eq_shift (h : t.Serves p a inputs) (hsettled : Settled p a inputs)
    (hs : a.states[s]? = some st) (hx : x < p.terminals) {u : Nat} (hu : st.goto? x = some u) :
    t.action s x = .shift u := by
  rcases h.action hs hx with ⟨-, h, -⟩ | ⟨v, h, hv⟩ | ⟨r, -, hlt, hr⟩ | ⟨-, h, -⟩
  · exact absurd (hu.symm.trans h) (by simp)
  · rw [h, Option.some.inj (hu.symm.trans hv)]
  · exact absurd (hu.symm.trans (hsettled.goto hs hr hlt)) (by simp)
  · exact absurd (hu.symm.trans h) (by simp)

theorem action_eq_reduce (h : t.Serves p a inputs) (hsettled : Settled p a inputs)
    (hs : a.states[s]? = some st) (hx : x < p.terminals) {r : Nat}
    (hr : Completes p a inputs s x r) (hlt : r < p.rules) : t.action s x = .reduce r := by
  have hgoto := hsettled.goto hs hr hlt
  rcases h.action hs hx with ⟨-, -, h⟩ | ⟨v, -, hv⟩ | ⟨r', h, -, hr'⟩ | ⟨-, -, r', hge, hr'⟩
  · exact absurd hr (h r)
  · exact absurd (hv.symm.trans hgoto) (by simp)
  · rw [h, hsettled.unique hr hr']
  · have := hsettled.unique hr hr'
    omega

theorem action_eq_accept (h : t.Serves p a inputs) (hsettled : Settled p a inputs)
    (hs : a.states[s]? = some st) (hx : x < p.terminals) {r : Nat}
    (hr : Completes p a inputs s x r) (hge : p.rules ≤ r) (hgoto : st.goto? x = none) :
    t.action s x = .accept := by
  rcases h.action hs hx with ⟨-, -, h⟩ | ⟨v, -, hv⟩ | ⟨r', -, hlt, hr'⟩ | ⟨h, -⟩
  · exact absurd hr (h r)
  · exact absurd (hv.symm.trans hgoto) (by simp)
  · have := hsettled.unique hr hr'
    omega
  · exact h

end ParseTable.Serves

/-! ## 4. Tables of a grammar -/

section Build

variable {g : Grammar} {options : ParseOptions} {t : ParseTable} {ds : List Diagnostic}

/-- The automaton of a grammar. -/
def automatonOf (g : Grammar) : Automaton := .ofProductions (.ofGrammar g)

/-- The reductions of a grammar. -/
def reductionsFor (g : Grammar) : Array Reductions :=
  reductions (.ofProductions (.ofGrammar g)) (automatonOf g) g.inputList

theorem build_eq_ok (h : build g options = .ok (t, ds)) :
    ∃ debug, t = { tableOf g (automatonOf g) (reductionsFor g) options with debug } := by
  unfold build at h
  split at h
  · cases h
  · split at h
    · cases h
    · obtain ⟨rfl, -⟩ := Prod.mk.inj (Except.ok.inj h)
      exact ⟨_, rfl⟩

theorem action_of_build (h : build g options = .ok (t, ds)) {s x : Nat} {st : ItemState}
    (hs : (automatonOf g).states[s]? = some st) (hx : x < g.terminals) :
    t.action s x = (entryOf g (reductionsFor g) s st x).1 := by
  obtain ⟨debug, rfl⟩ := build_eq_ok h
  exact @action_tableOf _ _ _ options _ _ _ hs hx

theorem conflicts_of_build (h : build g options = .ok (t, ds)) : t.conflicts = [] ↔
    ∀ {s x : Nat} {st : ItemState}, (automatonOf g).states[s]? = some st → x < g.terminals →
      (entryOf g (reductionsFor g) s st x).2 = [] := by
  obtain ⟨debug, rfl⟩ := build_eq_ok h
  exact @conflicts_tableOf_eq_nil _ _ _ options

theorem mem_conflicts_of_build (h : build g options = .ok (t, ds)) {c : Conflict} :
    c ∈ t.conflicts ↔ ∃ s st x, (automatonOf g).states[s]? = some st ∧ x < g.terminals ∧
      c ∈ (entryOf g (reductionsFor g) s st x).2 := by
  obtain ⟨debug, rfl⟩ := build_eq_ok h
  exact @mem_conflicts_tableOf _ _ _ options _

theorem nodup_conflicts_of_build (h : build g options = .ok (t, ds)) : t.conflicts.Nodup := by
  obtain ⟨debug, rfl⟩ := build_eq_ok h
  exact @nodup_conflicts_tableOf _ _ _ options

theorem findings_of_build (h : build g options = .ok (t, ds)) :
    ds = symbolFindings g ++ conflictFindings g (.ofGrammar g) t.conflicts := by
  unfold build at h
  split at h
  · cases h
  · split at h
    · cases h
    · obtain ⟨rfl, rfl⟩ := Prod.mk.inj (Except.ok.inj h)
      rfl

theorem mem_candidates_reductionsFor {s x r : Nat} {st : ItemState}
    (hs : (automatonOf g).states[s]? = some st) :
    r ∈ candidates ((reductionsFor g).getD s []) x ↔
      Completes (.ofGrammar g) (automatonOf g) g.inputList s x r :=
  mem_candidates_iff hs

/-- The productions that a state may reduce before a terminal. -/
def candidatesAt (g : Grammar) (s x : Nat) : List Nat := candidates ((reductionsFor g).getD s []) x

theorem mem_candidatesAt {s : Nat} {st : ItemState} (hs : (automatonOf g).states[s]? = some st)
    {x rule : Nat} :
    rule ∈ candidatesAt g s x ↔ Completes (.ofGrammar g) (automatonOf g) g.inputList s x rule :=
  mem_candidates_reductionsFor hs

theorem pairwise_candidatesAt {s : Nat} {st : ItemState}
    (hs : (automatonOf g).states[s]? = some st) (x : Nat) :
    (candidatesAt g s x).Pairwise (· < ·) := by
  rw [candidatesAt, reductionsFor, getD_reductions hs]
  exact pairwise_candidates (pairwise_reductionsOf ..) x

theorem nodup_candidatesAt {s : Nat} {st : ItemState} (hs : (automatonOf g).states[s]? = some st)
    (x : Nat) : (candidatesAt g s x).Nodup :=
  (pairwise_candidatesAt hs x).imp Nat.ne_of_lt

theorem entryOf_eq (g : Grammar) (s : Nat) (st : ItemState) (x : Nat) :
    entryOf g (reductionsFor g) s st x =
      (policyOf g).entry s x (st.goto? x) (candidatesAt g s x) :=
  rfl

theorem serves_tableOf (g : Grammar) (options : ParseOptions) :
    (tableOf g (automatonOf g) (reductionsFor g) options).Serves (.ofGrammar g) (automatonOf g)
      g.inputList := by
  have hrule : ∀ {rule : Nat}, rule < g.ruleList.length → ∃ r, g.ruleList[rule]? = some r :=
    fun h => ⟨_, List.getElem?_eq_getElem h⟩
  refine
    { terminals := rfl, starts := fun i => by simp [tableOf], ruleLeft := ?_, ruleLength := ?_,
      goto := fun hs hge hlt => goto_tableOf hs hge hlt, action := ?_, default := ?_ }
  · intro rule hlt
    obtain ⟨r, hr⟩ := hrule hlt
    rw [Productions.leftOf_rule g hr]
    simp [tableOf, Array.getD_eq_getD_getElem?, hr]
  · intro rule hlt
    obtain ⟨r, hr⟩ := hrule hlt
    rw [Productions.rightOf_rule g hr]
    simp [tableOf, Array.getD_eq_getD_getElem?, hr]
  · intro s x st hs hx
    rw [action_tableOf hs hx, entryOf]
    simp only [← mem_candidates_reductionsFor hs]
    rcases (policyOf g).entry_cases s x (st.goto? x) (candidates ((reductionsFor g).getD s []) x)
      with ⟨h, hgoto, hnil⟩ | h | ⟨r, hr, h, hlt⟩ | ⟨r, hr, h, hge, hgoto⟩
    · exact Or.inl ⟨h, hgoto, fun r => hnil ▸ List.not_mem_nil⟩
    · exact Or.inr (Or.inl h)
    · exact Or.inr (Or.inr (Or.inl ⟨r, h, hlt, hr⟩))
    · exact Or.inr (Or.inr (Or.inr ⟨h, hgoto, r, hge, hr⟩))
  · intro s r st hs hr
    rw [defaultReduce_tableOf hs] at hr
    split at hr
    · obtain ⟨hmem, hall⟩ := defaultOf_eq_some hr
      obtain ⟨x, hx, heq⟩ := List.mem_map.mp hmem
      have hlt := List.mem_range.mp hx
      refine ⟨⟨x, hlt, (action_tableOf hs hlt).trans heq⟩, fun y hy => ?_⟩
      rw [action_tableOf hs hy]
      exact hall _ (List.mem_map.mpr ⟨y, List.mem_range.mpr hy, rfl⟩)
    · cases hr

/-- **The tables of a grammar serve its automaton**, whatever priorities and conflicts there are. -/
theorem serves_of_build (h : build g options = .ok (t, ds)) :
    t.Serves (.ofGrammar g) (automatonOf g) g.inputList := by
  obtain ⟨debug, rfl⟩ := build_eq_ok h
  have hserves := serves_tableOf g options
  exact
    { terminals := hserves.terminals, starts := hserves.starts, ruleLeft := hserves.ruleLeft,
      ruleLength := hserves.ruleLength, goto := hserves.goto, action := hserves.action,
      default := hserves.default }

/-- **Without priorities and conflicts there is no choice.** -/
theorem settled_of_build (h : build g options = .ok (t, ds)) (hpriorities : g.priorityList = [])
    (hconflicts : t.conflicts = []) : Settled (.ofGrammar g) (automatonOf g) g.inputList := by
  have hentry : ∀ {s x r : Nat}, Completes (.ofGrammar g) (automatonOf g) g.inputList s x r →
      ∃ st, (automatonOf g).states[s]? = some st ∧
        (candidates ((reductionsFor g).getD s []) x).length ≤ 1 ∧ ∀ t, st.goto? x = some t →
          ∀ r ∈ candidates ((reductionsFor g).getD s []) x, g.ruleList.length ≤ r := by
    intro s x r hr
    obtain ⟨i, hi, -⟩ := hr
    obtain ⟨st, hs⟩ := hi.exists_state
    exact ⟨st, hs, Policy.of_entry_settled (terminalPrecedence_of_no_priorities hpriorities x)
      ((conflicts_of_build h).mp hconflicts hs hi.lt_terminals)⟩
  constructor
  · intro s x r r' hr hr'
    obtain ⟨st, hs, hone, -⟩ := hentry hr
    have hmem := (mem_candidates_reductionsFor hs).mpr hr
    have hmem' := (mem_candidates_reductionsFor hs).mpr hr'
    obtain ⟨y, hy⟩ := List.length_eq_one_iff.mp
      (Nat.le_antisymm hone (List.length_pos_of_mem hmem))
    rw [hy] at hmem hmem'
    exact (List.mem_singleton.mp hmem).trans (List.mem_singleton.mp hmem').symm
  · intro s x r st hs hr hlt
    obtain ⟨st', hs', -, hshift⟩ := hentry hr
    obtain rfl := Option.some.inj (hs.symm.trans hs')
    cases hgoto : st.goto? x with
    | none => rfl
    | some u =>
      have := hshift u hgoto r ((mem_candidates_reductionsFor hs).mpr hr)
      exact absurd hlt (Nat.not_lt.mpr this)

/-- The end of the input may follow an input that has to be followed by it. -/
theorem mayFollow_eoi (hg : g.WellFormed) {input : Nat} {i : Input}
    (hi : g.inputList[input]? = some i) (heoi : i.hasEoi = true) :
    MayFollow (.ofGrammar g) g.inputList input 0 := by
  refine ⟨hg.terminals_pos, [0], ?_, List.mem_singleton.mpr rfl⟩
  rw [inputLookaheads, List.getElem?_map, hi, Option.map_some, if_pos heoi]

/-- The choice of default reductions changes nothing but the default reductions. -/
theorem build_options {options' : ParseOptions} {t' : ParseTable} {ds' : List Diagnostic}
    (h : build g options = .ok (t, ds)) (h' : build g options' = .ok (t', ds')) :
    ∃ defaultReduce debug, t = { t' with defaultReduce, debug } := by
  obtain ⟨debug, rfl⟩ := build_eq_ok h
  obtain ⟨debug', rfl⟩ := build_eq_ok h'
  exact ⟨_, debug, rfl⟩

/-- Without default reductions no state has one. -/
theorem defaultReduce_of_build (h : build g options = .ok (t, ds))
    (hoptions : options.defaultReductions = false) (s : Nat) :
    t.defaultReduce.getD s none = none := by
  obtain ⟨debug, rfl⟩ := build_eq_ok h
  simp only [tableOf, hoptions, Array.getD_eq_getD_getElem?, List.getElem?_toArray,
    List.getElem?_map]
  cases ((automatonOf g).states.toList.zipIdx)[s]? <;> simp

end Build

end GrammarTables.Lr
