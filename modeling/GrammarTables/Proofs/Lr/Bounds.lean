import GrammarTables.Proofs.Lr.Table
/-
# Parser tables stay within themselves

Every state that an entry of the tables leads to is a state of the tables, every rule that an entry
reduces is a rule, and the arrays have the sizes that looking up takes for granted
(`ParseTable.Bounded`).

An input is complete in one state only: the item that says so is in no other
(`Automaton.finals_of_mem`).
-/

namespace GrammarTables.Lr

variable {p : Productions}

/-! ## 1. The states in which inputs are complete -/

/-- The kernel after the target of an input has been read from its start. -/
def Completed (p : Productions) (rule : Nat) (kernel : List Item) : Prop :=
  ∃ x, (⟨rule, 0⟩ : Item).next? p = some x ∧ (x, kernel) ∈ successors p [⟨rule, 0⟩]

theorem Completed.unique {rule : Nat} {kernel kernel' : List Item} (h : Completed p rule kernel)
    (h' : Completed p rule kernel') : kernel = kernel' := by
  obtain ⟨x, hx, hmem⟩ := h
  obtain ⟨x', hx', hmem'⟩ := h'
  obtain rfl := Option.some.inj (hx.symm.trans hx')
  rw [(mem_successors.mp hmem).2, (mem_successors.mp hmem').2]

/-- No other input is complete there. -/
theorem Completed.rule_eq (hp : p.Proper) {rule rule' : Nat} {kernel : List Item}
    (h : Completed p rule kernel) (hrule' : p.rules ≤ rule') (hmem : ⟨rule', 1⟩ ∈ kernel) :
    rule' = rule := by
  obtain ⟨x, -, hsuccessor⟩ := h
  rw [(mem_successors.mp hsuccessor).2] at hmem
  obtain ⟨i, hi, -, hadvance⟩ := mem_sorted_advance.mp hmem
  obtain ⟨rfl, -⟩ := Item.mk.inj hadvance
  by_contra hne
  have hnot : i ∉ [(⟨rule, 0⟩ : Item)] := by
    rw [List.mem_singleton]
    rintro rfl
    exact hne rfl
  exact absurd (of_mem_closure hp hi hnot).2.1 (Nat.not_lt.mpr hrule')

/-- The kernel of a start, or one in which all dots have moved. -/
def Entered (p : Productions) (kernel : List Item) : Prop :=
  (∃ rule, kernel = [⟨rule, 0⟩]) ∨ (∀ i ∈ kernel, i.dot ≠ 0) ∧
    ∀ rule, p.rules ≤ rule → ⟨rule, 1⟩ ∈ kernel → Completed p rule kernel

theorem entered_successor (hp : p.Proper) {kernel : List Item} (h : Entered p kernel)
    {e : Nat × List Item} (he : e ∈ successors p kernel) : Entered p e.2 := by
  obtain ⟨x, kernel'⟩ := e
  have hmem : ∀ {j : Item}, j ∈ kernel' → ∃ i ∈ closure p kernel, i.next? p = some x ∧
      j = i.advance := by
    intro j hj
    rw [(mem_successors.mp he).2] at hj
    exact mem_sorted_advance.mp hj
  refine Or.inr ⟨fun j hj => ?_, fun rule hrule hj => ?_⟩
  · obtain ⟨i, -, -, rfl⟩ := hmem hj
    exact Nat.succ_ne_zero _
  · obtain ⟨i, hi, hnext, hadvance⟩ := hmem hj
    obtain rfl : i = ⟨rule, 0⟩ := by
      obtain ⟨hr, hd⟩ := Item.mk.inj hadvance
      exact Item.eq_of_eq hr.symm (Nat.succ.inj hd).symm
    -- the production of an input is expected by nothing, so it comes from the kernel of a start
    have hkernel : (⟨rule, 0⟩ : Item) ∈ kernel := by
      by_contra hnot
      exact absurd (of_mem_closure hp hi hnot).2.1 (Nat.not_lt.mpr hrule)
    rcases h with ⟨rule', rfl⟩ | ⟨hdots, -⟩
    · obtain rfl := (Item.mk.inj (List.mem_singleton.mp hkernel)).1
      exact ⟨x, hnext, he⟩
    · exact absurd rfl (hdots _ hkernel)

namespace Automaton

/-- Where the item of an input that is complete is in a kernel, nothing but its target was read. -/
theorem completed_of_mem (hp : p.Proper) {s rule : Nat} {st : ItemState} (hrule : p.rules ≤ rule)
    (hs : (ofProductions p).states[s]? = some st) (hmem : ⟨rule, 1⟩ ∈ st.kernel) :
    Completed p rule st.kernel := by
  have hentered := kernel_induction (P := Entered p) hp (fun rule _ => Or.inl ⟨rule, rfl⟩)
    (fun kernel hkernel e he => entered_successor hp hkernel he) hs
  rcases hentered with ⟨rule', heq⟩ | ⟨-, hall⟩
  · rw [heq] at hmem
    cases (Item.mk.inj (List.mem_singleton.mp hmem)).2
  · exact hall _ hrule hmem

/-- **An input is complete in one state only.** -/
theorem finals_of_mem (hp : p.Proper) {s i : Nat} {st : ItemState} (hi : i < p.size - p.rules)
    (hs : (ofProductions p).states[s]? = some st) (hmem : ⟨p.rules + i, 1⟩ ∈ st.kernel) :
    (ofProductions p).finals[i]? = some s := by
  -- the search finds a state with the item, which has the same kernel
  obtain ⟨t, ht⟩ : ∃ t, (ofProductions p).states.findIdx?
      (fun st => st.kernel.contains ⟨p.rules + i, 1⟩) = some t := by
    rw [← Option.isSome_iff_exists, Array.findIdx?_isSome, Array.any_eq_true']
    exact ⟨st, Array.mem_of_getElem? hs, by simpa using hmem⟩
  obtain ⟨hlt, hfound, -⟩ := Array.findIdx?_eq_some_iff_getElem.mp ht
  have hst' : (ofProductions p).states[t]? = some _ := Array.getElem?_eq_getElem hlt
  have hge := Nat.le_add_right p.rules i
  have heq := (completed_of_mem hp hge hs hmem).unique
    (completed_of_mem hp hge hst' (by simpa using hfound))
  have hsame : s = t := kernel_inj hp hs hst' heq
  have hfinals : (ofProductions p).finals = p.startRules.map fun rule =>
      ((ofProductions p).states.findIdx? fun s => s.kernel.contains ⟨rule, 1⟩).getD 0 := rfl
  have hrule : p.startRules[i]? = some (p.rules + i) := by
    simp [Productions.startRules, List.getElem?_range hi]
  rw [hfinals, List.getElem?_map, hrule, Option.map_some, ht, Option.getD_some, hsame]

end Automaton

/-! ## 2. Entries -/

/-- **Every entry of the tables refers to states and rules that there are**, and the tables have
the entries that looking up a state and a symbol asks for. -/
structure ParseTable.Bounded (t : ParseTable) : Prop where
  size_actions : t.actions.size = t.states * t.terminals
  size_gotos : t.gotos.size = t.states * t.nonterminals
  size_defaultReduce : t.defaultReduce.size = t.states
  size_ruleLength : t.ruleLength.size = t.rules
  start : ∀ {s : Nat}, s ∈ t.startStates → s < t.states
  shift : ∀ {s : Nat}, .shift s ∈ t.actions → s < t.states
  reduce : ∀ {rule : Nat}, .reduce rule ∈ t.actions → rule < t.rules
  goto : ∀ {s : Nat}, some s ∈ t.gotos → s < t.states
  default : ∀ {rule : Nat}, some rule ∈ t.defaultReduce → rule < t.rules
  left : ∀ {x : Nat}, x ∈ t.ruleLeft → t.terminals ≤ x ∧ x < t.terminals + t.nonterminals

namespace ParseTable.Bounded

variable {t : ParseTable}

/-- The place of a state and a number below `n` in rows of length `n`. -/
theorem mul_add_lt {s states x n : Nat} (hs : s < states) (hx : x < n) : s * n + x < states * n :=
  calc s * n + x < s * n + n := Nat.add_lt_add_left hx _
    _ = (s + 1) * n := (Nat.succ_mul s n).symm
    _ ≤ states * n := Nat.mul_le_mul_right n hs

theorem action_lt (h : t.Bounded) {s x : Nat} (hs : s < t.states) (hx : x < t.terminals) :
    s * t.terminals + x < t.actions.size :=
  h.size_actions ▸ mul_add_lt hs hx

theorem goto_lt (h : t.Bounded) {s x : Nat} (hs : s < t.states) (hge : t.terminals ≤ x)
    (hlt : x < t.terminals + t.nonterminals) :
    s * t.nonterminals + x - t.terminals < t.gotos.size := by
  rw [h.size_gotos, Nat.add_sub_assoc hge]
  exact mul_add_lt hs (by omega)

end ParseTable.Bounded

section Build

variable {g : Grammar} {options : ParseOptions} {t : ParseTable} {ds : List Diagnostic}

/-- **The tables of a grammar are bounded.** -/
theorem bounded_tableOf (hg : g.WellFormed) :
    (tableOf g (automatonOf g) (reductionsFor g) options).Bounded := by
  have hp := Productions.proper_ofGrammar hg
  have ha : (automatonOf g).Proper (.ofGrammar g) := Automaton.proper_ofProductions hp
  have hrules : (tableOf g (automatonOf g) (reductionsFor g) options).rules = g.ruleList.length := by
    simp [ParseTable.rules, tableOf]
  have hgoto : ∀ {s x u : Nat} {st : ItemState}, (automatonOf g).states[s]? = some st →
      st.goto? x = some u → u < (automatonOf g).size := by
    intro s x u st hs hu
    obtain ⟨st', hst', -⟩ := ha.goto hs hu
    exact (Array.getElem?_eq_some_iff.mp hst').1
  have hentry : ∀ {e : Action}, e ∈ (tableOf g (automatonOf g) (reductionsFor g) options).actions →
      ∃ s st x, (automatonOf g).states[s]? = some st ∧
        e = (entryOf g (reductionsFor g) s st x).1 := by
    intro e he
    rw [actions_tableOf, List.mem_toArray, List.mem_flatMap] at he
    obtain ⟨⟨st, s⟩, hs, he⟩ := he
    obtain ⟨x, -, rfl⟩ := List.mem_map.mp he
    rw [List.mem_zipIdx_iff_getElem?, Array.getElem?_toList] at hs
    exact ⟨s, st, x, hs, rfl⟩
  have hreduce : ∀ {s x rule : Nat} {st : ItemState},
      (entryOf g (reductionsFor g) s st x).1 = .reduce rule → rule < g.ruleList.length := by
    intro s x rule st he
    rcases (policyOf g).entry_cases s x (st.goto? x) (candidates ((reductionsFor g).getD s []) x)
      with ⟨h, -⟩ | ⟨u, h, -⟩ | ⟨r, -, h, hlt⟩ | ⟨r, -, h, -⟩
    · exact absurd (he.symm.trans h) (by simp)
    · exact absurd (he.symm.trans h) (by simp)
    · exact (Action.reduce.inj (he.symm.trans h)) ▸ hlt
    · exact absurd (he.symm.trans h) (by simp)
  refine
    { size_actions := ?_
      size_gotos := ?_
      size_defaultReduce := by simp [tableOf, Automaton.size]
      size_ruleLength := by simp [tableOf, ParseTable.rules]
      start := ?_
      shift := ?_
      reduce := ?_
      goto := ?_
      default := ?_
      left := ?_ }
  · rw [actions_tableOf, List.size_toArray, length_flatMap_of_length (n := g.terminals)
      (by simp [actionRow])]
    simp [tableOf, Automaton.size]
  · have hgotos : (tableOf g (automatonOf g) (reductionsFor g) options).gotos =
        ((automatonOf g).states.toList.zipIdx.flatMap fun e =>
          gotoRow g.terminals g.nonterminals e.1).toArray := rfl
    rw [hgotos, List.size_toArray, length_flatMap_of_length (n := g.nonterminals)
      (by simp [gotoRow])]
    simp [tableOf, Automaton.size]
  · intro s hs
    obtain ⟨i, hi⟩ := List.mem_iff_getElem?.mp (List.mem_toArray.mp hs)
    obtain ⟨st, hst, -⟩ := ha.starts hi
    exact (Array.getElem?_eq_some_iff.mp hst).1
  · intro u hu
    obtain ⟨s, st, x, hs, he⟩ := hentry hu
    rcases (policyOf g).entry_cases s x (st.goto? x) (candidates ((reductionsFor g).getD s []) x)
      with ⟨h, -⟩ | ⟨v, h, hv⟩ | ⟨r, -, h, -⟩ | ⟨r, -, h, -⟩
    · exact absurd (he.trans h) (by simp)
    · exact hgoto hs ((Action.shift.inj (he.trans h)) ▸ hv)
    · exact absurd (he.trans h) (by simp)
    · exact absurd (he.trans h) (by simp)
  · intro rule hrule
    obtain ⟨s, st, x, -, he⟩ := hentry hrule
    exact hrules ▸ hreduce he.symm
  · intro u hu
    have hu' : some u ∈ (automatonOf g).states.toList.zipIdx.flatMap fun e =>
      gotoRow g.terminals g.nonterminals e.1 := List.mem_toArray.mp hu
    obtain ⟨⟨st, s⟩, hs, hu'⟩ := List.mem_flatMap.mp hu'
    obtain ⟨n, -, hn⟩ := List.mem_map.mp hu'
    rw [List.mem_zipIdx_iff_getElem?, Array.getElem?_toList] at hs
    exact hgoto hs hn
  · intro rule hrule
    rw [defaults_tableOf, List.mem_toArray, List.mem_map] at hrule
    obtain ⟨⟨st, s⟩, -, hdefault⟩ := hrule
    split at hdefault
    · obtain ⟨x, -, he⟩ := List.mem_map.mp (defaultOf_eq_some hdefault).1
      exact hrules ▸ hreduce he
    · cases hdefault
  · intro x hx
    obtain ⟨r, hr, rfl⟩ := List.mem_map.mp (List.mem_toArray.mp hx)
    have hleft := hg.left r hr
    have hle := hg.terminals_le
    have hsymbols : g.terminals + g.nonterminals = g.grammarSymbols := by
      rw [Grammar.nonterminals]
      omega
    exact ⟨hleft.1, Nat.lt_of_lt_of_eq hleft.2 hsymbols.symm⟩

theorem bounded_of_build (hg : g.WellFormed) (h : build g options = .ok (t, ds)) : t.Bounded := by
  obtain ⟨debug, rfl⟩ := build_eq_ok h
  have hbounded := @bounded_tableOf g options hg
  exact
    { size_actions := hbounded.size_actions, size_gotos := hbounded.size_gotos,
      size_defaultReduce := hbounded.size_defaultReduce,
      size_ruleLength := hbounded.size_ruleLength, start := hbounded.start,
      shift := hbounded.shift, reduce := hbounded.reduce, goto := hbounded.goto,
      default := hbounded.default, left := hbounded.left }

end Build

end GrammarTables.Lr
