import GrammarTables.Proofs.Lr.Moves
import GrammarTables.Proofs.Lr.Precedence
import GrammarTables.Proofs.Lr.Sentential
/-
# Grammars of binary operators

A grammar whose rules are `e ::= atom` and `e ::= e op e` for some operators is ambiguous, and
declared precedences choose one tree (`Grammar.Operators`).  Its automaton has three kinds of states
(`KernelShape`): an operand is expected, an atom was read, or an operand was read.  No state has two
productions to reduce, and only the last kind has both a production to reduce and something to
shift, an operator (`Productions.Operators.state_cases`).

So the precedences settle every conflict, and what the tables do before an operator is determined by
how it groups with the operator before the last operand (`Grammar.Operators.action_operator`).
-/

namespace GrammarTables

/-! ## 1. Rules -/

/-- **A grammar of operators.**  The operand `e` is an `atom`, or two operands with one of the
operators `ops` in between; it is the only input, up to the end of the input.  Each operator has a
declared precedence. -/
structure Grammar.Operators (g : Grammar) (e atom : Nat) (ops : List Nat) : Prop where
  /-- The rules, in any order. -/
  rules : (g.ruleList.map fun r => (r.left, r.right.map (·.target), r.precedence)).Perm
    ((e, [atom], none) :: ops.map fun op => (e, [e, op, e], none))
  nodup : ops.Nodup
  atom_lt : atom < g.terminals
  op_lt : ∀ op ∈ ops, op < g.terminals
  input : ∃ i, g.inputList = [i] ∧ i.target = e ∧ i.hasEoi = true
  listed : ∀ op ∈ ops, g.ListedOnce op

namespace Lr

/-- **The productions of a grammar of operators.** -/
structure Productions.Operators (p : Productions) (e atom : Nat) (ops : List Nat) : Prop where
  proper : p.Proper
  atom_lt : atom < p.terminals
  op_lt : ∀ op ∈ ops, op < p.terminals
  le_operand : p.terminals ≤ e
  size : p.size = p.rules + 1
  input : p.rightOf p.rules = [e]
  left : ∀ {rule : Nat}, rule < p.rules → p.leftOf rule = e
  right : ∀ {rule : Nat}, rule < p.rules →
    p.rightOf rule = [atom] ∨ ∃ op ∈ ops, p.rightOf rule = [e, op, e]
  exists_atom : ∃ rule < p.rules, p.rightOf rule = [atom]
  exists_op : ∀ op ∈ ops, ∃ rule < p.rules, p.rightOf rule = [e, op, e]
  unique : ∀ {rule rule' : Nat}, rule < p.rules → rule' < p.rules →
    p.rightOf rule = p.rightOf rule' → rule = rule'

end Lr

namespace Grammar.Operators

open Lr (Productions)

variable {g : Grammar} {e atom : Nat} {ops : List Nat}

/-- What a rule is. -/
theorem rule_cases (h : g.Operators e atom ops) {rule : Nat} {r : Rule}
    (hr : g.ruleList[rule]? = some r) : r.left = e ∧ r.precedence = none ∧
      (r.right.map (·.target) = [atom] ∨ ∃ op ∈ ops, r.right.map (·.target) = [e, op, e]) := by
  have hmem := h.rules.mem_iff.mp (List.mem_map_of_mem (List.mem_of_getElem? hr))
  rcases List.mem_cons.mp hmem with heq | hmem
  · obtain ⟨hleft, hright, hprecedence⟩ := by simpa only [Prod.mk.injEq] using heq
    exact ⟨hleft, hprecedence, Or.inl hright⟩
  · obtain ⟨op, hop, heq⟩ := List.mem_map.mp hmem
    obtain ⟨hleft, hright, hprecedence⟩ := by simpa only [Prod.mk.injEq] using heq
    exact ⟨hleft.symm, hprecedence.symm, Or.inr ⟨op, hop, hright.symm⟩⟩

/-- Each rule is there. -/
theorem exists_rule (h : g.Operators e atom ops) {right : List Nat}
    (hright : right = [atom] ∨ ∃ op ∈ ops, right = [e, op, e]) :
    ∃ rule < g.ruleList.length, (Productions.ofGrammar g).rightOf rule = right := by
  have hmem : (e, right, none) ∈
      g.ruleList.map fun r => (r.left, r.right.map (·.target), r.precedence) := by
    refine h.rules.mem_iff.mpr ?_
    rcases hright with rfl | ⟨op, hop, rfl⟩
    · exact List.mem_cons_self ..
    · exact List.mem_cons_of_mem _ (List.mem_map.mpr ⟨op, hop, rfl⟩)
  obtain ⟨r, hr, heq⟩ := List.mem_map.mp hmem
  obtain ⟨rule, hrule⟩ := List.mem_iff_getElem?.mp hr
  refine ⟨rule, (List.getElem?_eq_some_iff.mp hrule).1, ?_⟩
  rw [Productions.rightOf_rule g hrule]
  exact (Prod.mk.inj (Prod.mk.inj heq).2).1

/-- No rule is there twice. -/
theorem rule_unique (h : g.Operators e atom ops) {rule rule' : Nat}
    (hrule : rule < g.ruleList.length) (hrule' : rule' < g.ruleList.length)
    (heq : (Productions.ofGrammar g).rightOf rule = (Productions.ofGrammar g).rightOf rule') :
    rule = rule' := by
  have hnodup : ((e, [atom], none) ::
      ops.map fun op => (e, [e, op, e], (none : Option Nat))).Nodup := by
    refine List.nodup_cons.mpr ⟨by simp, h.nodup.map ?_⟩
    intro op op' hop
    simpa using hop
  have hr : g.ruleList[rule]? = some _ := List.getElem?_eq_getElem hrule
  have hr' : g.ruleList[rule']? = some _ := List.getElem?_eq_getElem hrule'
  obtain ⟨hleft, hprecedence, -⟩ := h.rule_cases hr
  obtain ⟨hleft', hprecedence', -⟩ := h.rule_cases hr'
  rw [Productions.rightOf_rule g hr, Productions.rightOf_rule g hr'] at heq
  refine (List.getElem?_inj (by rwa [List.length_map]) (h.rules.nodup_iff.mpr hnodup)).mp ?_
  rw [List.getElem?_map, List.getElem?_map, hr, hr', Option.map_some, Option.map_some, hleft,
    hleft', heq, hprecedence, hprecedence']

/-- **The productions of a grammar of operators.** -/
theorem productions (h : g.Operators e atom ops) (hg : g.WellFormed) :
    (Productions.ofGrammar g).Operators e atom ops := by
  obtain ⟨i, hinput, rfl, -⟩ := h.input
  have hi : g.inputList[0]? = some i := by rw [hinput]; rfl
  refine
    { proper := Productions.proper_ofGrammar hg
      atom_lt := h.atom_lt
      op_lt := h.op_lt
      le_operand := (hg.inputs i (List.mem_of_getElem? hi)).1
      size := ?_
      input := Productions.rightOf_input g hi
      left := ?_
      right := ?_
      exists_atom := h.exists_rule (Or.inl rfl)
      exists_op := fun op hop => h.exists_rule (Or.inr ⟨op, hop, rfl⟩)
      unique := h.rule_unique }
  · rw [Productions.size_ofGrammar, hinput]
    rfl
  · intro rule hlt
    have hr : g.ruleList[rule]? = some _ := List.getElem?_eq_getElem hlt
    rw [Productions.leftOf_rule g hr]
    exact (h.rule_cases hr).1
  · intro rule hlt
    have hr : g.ruleList[rule]? = some _ := List.getElem?_eq_getElem hlt
    rw [Productions.rightOf_rule g hr]
    exact (h.rule_cases hr).2.2

end Grammar.Operators

namespace Lr

/-! ## 2. States -/

variable {p : Productions} {e atom : Nat} {ops : List Nat}

/-- An item that continues an operand with an operator. -/
def Item.Continues (p : Productions) (e : Nat) (ops : List Nat) (i : Item) : Prop :=
  ∃ op ∈ ops, ∃ rule < p.rules, p.rightOf rule = [e, op, e] ∧ i = ⟨rule, 1⟩

theorem Item.Continues.exists_next {i : Item} (h : i.Continues p e ops) :
    ∃ op ∈ ops, i.next? p = some op := by
  obtain ⟨op, hop, rule, -, hright, rfl⟩ := h
  exact ⟨op, hop, by rw [Item.next?, hright]; rfl⟩

/-- **What a kernel can hold**, where `i` is an item that ends with an operand. -/
inductive KernelShape (p : Productions) (e atom : Nat) (ops : List Nat) (kernel : List Item) : Prop
  /-- The operand is expected. -/
  | operand (i : Item) (hrest : i.rest p = [e]) (hkernel : ∀ j ∈ kernel, j = i)
  /-- The operand was read, and may turn out to be the beginning of one. -/
  | operator (i : Item) (hrest : i.rest p = [e])
      (hkernel : ∀ j ∈ kernel, j = i.advance ∨ j.Continues p e ops)
  /-- An atom was read. -/
  | atom (hkernel : ∀ j ∈ kernel, j.rule < p.rules ∧ p.rightOf j.rule = [atom] ∧ j.next? p = none)

/-- A state that shifts nothing but operators, and nothing at all if the production `rule` is that of
an atom. -/
def ItemState.ShiftsOperators (p : Productions) (atom : Nat) (ops : List Nat) (rule : Nat)
    (st : ItemState) : Prop :=
  ∀ i ∈ st.items, ∀ x, i.next? p = some x → x ∈ ops ∧ p.rightOf rule ≠ [atom]

namespace Productions.Operators

theorem atom_ne (h : p.Operators e atom ops) : atom ≠ e :=
  Nat.ne_of_lt (Nat.lt_of_lt_of_le h.atom_lt h.le_operand)

theorem op_ne (h : p.Operators e atom ops) {op : Nat} (hop : op ∈ ops) : op ≠ e :=
  Nat.ne_of_lt (Nat.lt_of_lt_of_le (h.op_lt op hop) h.le_operand)

/-- Where no operand is expected, there are no items but those of the kernel. -/
theorem mem_kernel (h : p.Operators e atom ops) {kernel : List Item}
    (hkernel : ∀ i ∈ kernel, i.next? p ≠ some e) : ∀ i ∈ closure p kernel, i ∈ kernel := by
  refine closure_induction h.proper (fun i hi => hi) ?_
  intro i rule hi hrule hnext
  rw [h.left hrule] at hnext
  exact absurd hnext (hkernel i hi)

/-- The items where an operand is expected. -/
theorem mem_closure_operand (h : p.Operators e atom ops) {kernel : List Item} {i : Item}
    (hkernel : ∀ j ∈ kernel, j = i) : ∀ j ∈ closure p kernel, j = i ∨
      ∃ rule < p.rules, j = ⟨rule, 0⟩ :=
  closure_induction h.proper (fun j hj => Or.inl (hkernel j hj))
    fun _ hrule _ => Or.inr ⟨_, hrule, rfl⟩

/-- Nothing but the kernel is there after an operand. -/
theorem next_operator (h : p.Operators e atom ops) {kernel : List Item} {i : Item}
    (hrest : i.rest p = [e]) (hkernel : ∀ j ∈ kernel, j = i.advance ∨ j.Continues p e ops) :
    ∀ j ∈ closure p kernel, j = i.advance ∧ j.next? p = none ∨ j.Continues p e ops := by
  have hnone : i.advance.next? p = none := Item.next_of_rest_nil (Item.next_of_rest hrest).2
  intro j hj
  refine (hkernel j (h.mem_kernel (fun k hk => ?_) j hj)).imp_left fun heq => ⟨heq, heq ▸ hnone⟩
  rcases hkernel k hk with rfl | hk
  · simp [hnone]
  · obtain ⟨op, hop, hnext⟩ := hk.exists_next
    simpa [hnext] using h.op_ne hop

/-- **Reading a symbol leads from one shape to another.** -/
theorem kernelShape_successor (h : p.Operators e atom ops) {kernel : List Item}
    (hkernel : KernelShape p e atom ops kernel) {x : Nat} {kernel' : List Item}
    (hx : (x, kernel') ∈ successors p kernel) : KernelShape p e atom ops kernel' := by
  obtain ⟨⟨i₀, hi₀, hnext₀⟩, rfl⟩ := mem_successors.mp hx
  cases hkernel with
  | operand i hrest hkernel =>
    have hnext := (Item.next_of_rest hrest).1
    have hitems := h.mem_closure_operand hkernel
    by_cases hxe : x = e
    · subst hxe
      refine .operator i hrest fun j hj => ?_
      obtain ⟨k, hk, hknext, rfl⟩ := mem_sorted_advance.mp hj
      rcases hitems k hk with rfl | ⟨rule, hrule, rfl⟩
      · exact Or.inl rfl
      · rcases h.right hrule with hright | ⟨op, hop, hright⟩
        · rw [Item.next?, hright] at hknext
          exact absurd (Option.some.inj hknext) h.atom_ne
        · exact Or.inr ⟨op, hop, rule, hrule, hright, rfl⟩
    · refine .atom fun j hj => ?_
      obtain ⟨k, hk, hknext, rfl⟩ := mem_sorted_advance.mp hj
      rcases hitems k hk with rfl | ⟨rule, hrule, rfl⟩
      · exact absurd (Option.some.inj (hknext.symm.trans hnext)) hxe
      · rcases h.right hrule with hright | ⟨op, hop, hright⟩
        · exact ⟨hrule, hright, by simp [Item.next?, Item.advance, hright]⟩
        · rw [Item.next?, hright] at hknext
          exact absurd (Option.some.inj hknext).symm hxe
  | operator i hrest hkernel =>
    -- only the rule of the operator that was read goes on
    have hmoved : ∀ {j : Item}, j ∈ closure p kernel → j.next? p = some x →
        ∃ rule < p.rules, p.rightOf rule = [e, x, e] ∧ j = ⟨rule, 1⟩ := by
      intro j hj hjnext
      rcases h.next_operator hrest hkernel j hj with ⟨-, hnone⟩ | ⟨op, hop, rule, hrule, hright, rfl⟩
      · exact absurd (hjnext.symm.trans hnone) (by simp)
      · rw [Item.next?, hright] at hjnext
        obtain rfl : op = x := Option.some.inj hjnext
        exact ⟨rule, hrule, hright, rfl⟩
    obtain ⟨rule, hrule, hright, rfl⟩ := hmoved hi₀ hnext₀
    refine .operand ⟨rule, 2⟩ (by simp [Item.rest, hright]) fun j hj => ?_
    obtain ⟨k, hk, hknext, rfl⟩ := mem_sorted_advance.mp hj
    obtain ⟨rule', hrule', hright', rfl⟩ := hmoved hk hknext
    rw [h.unique hrule' hrule (hright'.trans hright.symm)]
    rfl
  | atom hkernel =>
    have hmem := h.mem_kernel (fun j hj => by simp [(hkernel j hj).2.2]) i₀ hi₀
    exact absurd (hnext₀.symm.trans (hkernel i₀ hmem).2.2) (by simp)

theorem kernelShape (h : p.Operators e atom ops) {s : Nat} {st : ItemState}
    (hs : (Automaton.ofProductions p).states[s]? = some st) :
    KernelShape p e atom ops st.kernel := by
  refine Automaton.kernel_induction (P := KernelShape p e atom ops) h.proper ?_
    (fun kernel hkernel e he => h.kernelShape_successor hkernel he) hs
  intro rule hrule
  obtain ⟨i, hi, rfl⟩ := List.mem_map.mp hrule
  rw [h.size, Nat.add_sub_cancel_left, List.mem_range, Nat.lt_one_iff] at hi
  subst hi
  refine .operand ⟨p.rules, 0⟩ ?_ fun j hj => List.mem_singleton.mp hj
  rw [Item.rest, h.input]
  rfl

/-- **A state of a grammar of operators** has nothing to reduce, or one production, and then it
shifts nothing but operators, after an operand. -/
theorem state_cases (h : p.Operators e atom ops) {s : Nat} {st : ItemState}
    (hs : (Automaton.ofProductions p).states[s]? = some st) :
    (∀ i ∈ st.items, i.next? p ≠ none) ∨
      ∃ rule, (∀ i ∈ st.items, i.next? p = none → i.rule = rule) ∧
        st.ShiftsOperators p atom ops rule := by
  unfold ItemState.ShiftsOperators
  rw [(Automaton.proper_ofProductions h.proper).items hs]
  cases h.kernelShape hs with
  | operand i hrest hkernel =>
    refine Or.inl fun j hj => ?_
    rcases h.mem_closure_operand hkernel j hj with rfl | ⟨rule, hrule, rfl⟩
    · simp [(Item.next_of_rest hrest).1]
    · rcases h.right hrule with hright | ⟨op, hop, hright⟩ <;> simp [Item.next?, hright]
  | operator i hrest hkernel =>
    have hitems := h.next_operator hrest hkernel
    refine Or.inr ⟨i.rule, fun j hj hnone => ?_, fun j hj x hnext => ?_⟩
    · rcases hitems j hj with ⟨rfl, -⟩ | hcontinues
      · rfl
      · obtain ⟨op, hop, hnext⟩ := hcontinues.exists_next
        exact absurd (hnext.symm.trans hnone) (by simp)
    · rcases hitems j hj with ⟨-, hnone⟩ | hcontinues
      · exact absurd (hnext.symm.trans hnone) (by simp)
      · obtain ⟨op, hop, hnext'⟩ := hcontinues.exists_next
        obtain rfl := Option.some.inj (hnext.symm.trans hnext')
        refine ⟨hop, fun hright => ?_⟩
        have hmem := Item.next_mem (Item.next_of_rest hrest).1
        rw [hright] at hmem
        exact h.atom_ne (List.mem_singleton.mp hmem).symm
  | atom hkernel =>
    have hmem : ∀ j ∈ closure p st.kernel, j ∈ st.kernel :=
      h.mem_kernel fun j hj => by simp [(hkernel j hj).2.2]
    obtain ⟨rule, hrule, hright⟩ := h.exists_atom
    refine Or.inr ⟨rule, fun j hj _ => ?_, fun j hj x hnext => ?_⟩
    · obtain ⟨hlt, hright', -⟩ := hkernel j (hmem j hj)
      exact h.unique hlt hrule (hright'.trans hright.symm)
    · exact absurd (hnext.symm.trans (hkernel j (hmem j hj)).2.2) (by simp)

end Productions.Operators

/-! ## 3. Where operands are expected -/

/-- The symbols read where an operand is expected, the last one first: operands, each with an
operator after it. -/
inductive BeforeOperand (e : Nat) (ops : List Nat) : List Nat → Prop
  | nil : BeforeOperand e ops []
  | cons {op : Nat} {σ : List Nat} : op ∈ ops → BeforeOperand e ops σ →
      BeforeOperand e ops (op :: e :: σ)

namespace Productions.Operators

variable {start : Nat} {σ : List Nat}

theorem mem_rulesOf (h : p.Operators e atom ops) {rule : Nat} (hrule : rule < p.rules) :
    rule ∈ p.rulesOf e :=
  h.proper.mem_rulesOf.mpr ⟨Nat.lt_of_lt_of_le hrule h.proper.rules_le, h.left hrule⟩

/-- Where an operand is expected before a terminal, each rule is, before the terminal and before
every operator. -/
theorem viable_rule (h : p.Operators e atom ops) {i : Item} {c b rule : Nat} {w : List Nat}
    (hi : Viable p start 0 σ i (c :: w)) (hrest : i.rest p = [e]) (hrule : rule < p.rules)
    (hb : b = c ∨ b ∈ ops) : ∃ w', Viable p start 0 σ ⟨rule, 0⟩ (b :: w') := by
  obtain ⟨hnext, hend⟩ := Item.next_of_rest hrest
  have hnil : p.Yields (i.advance.rest p) [] := by
    rw [hend]
    exact .nil
  have hlast : ∀ {rule : Nat}, rule < p.rules → Viable p start 0 σ ⟨rule, 0⟩ (c :: w) :=
    fun hrule => hi.close hnext (h.mem_rulesOf hrule) hnil
  rcases hb with rfl | hb
  · exact ⟨w, hlast hrule⟩
  · -- the operator follows the operand that it continues
    obtain ⟨rule', hrule', hright⟩ := h.exists_op b hb
    obtain ⟨atomRule, hatom, hatomRight⟩ := h.exists_atom
    have hrest' : (⟨rule', 0⟩ : Item).rest p = [e, b, e] := hright
    obtain ⟨hnext', hrest''⟩ := Item.next_of_rest hrest'
    have hoperand : p.Yields [e] ([atom] ++ []) :=
      .rule (h.mem_rulesOf hatom) (hatomRight ▸ .terminal h.atom_lt .nil) .nil
    have hyields : p.Yields [b, e] [b, atom] := .terminal (h.op_lt b hb) hoperand
    exact ⟨_, (hlast hrule').close hnext' (h.mem_rulesOf hrule) (hrest'' ▸ hyields)⟩

/-- **Where an operand is expected**, something ends with it before the end of the input. -/
theorem exists_viable (h : p.Operators e atom ops) (hσ : BeforeOperand e ops σ) :
    ∃ i w, i.rest p = [e] ∧ Viable p p.rules 0 σ i (0 :: w) := by
  induction hσ with
  | nil => exact ⟨⟨p.rules, 0⟩, [], h.input, .start⟩
  | @cons op σ hop _ ih =>
    obtain ⟨i, w, hrest, hi⟩ := ih
    obtain ⟨rule, hrule, hright⟩ := h.exists_op op hop
    obtain ⟨w', hw'⟩ := h.viable_rule hi hrest hrule (Or.inl rfl)
    have hsplit : (⟨rule, 0⟩ : Item).rest p = [e, op] ++ [e] := hright
    exact ⟨⟨rule, 2⟩, w', by simp [Item.rest, hright], hw'.advance hsplit⟩

/-- Each rule is expected there, before the end of the input and before every operator. -/
theorem viable_of_before (h : p.Operators e atom ops) (hσ : BeforeOperand e ops σ) {rule b : Nat}
    (hrule : rule < p.rules) (hb : b = 0 ∨ b ∈ ops) :
    ∃ w, Viable p p.rules 0 σ ⟨rule, 0⟩ (b :: w) := by
  obtain ⟨i, w, hrest, hi⟩ := h.exists_viable hσ
  exact h.viable_rule hi hrest hrule hb

end Productions.Operators

end Lr

/-! ## 4. Entries -/

namespace Grammar.Operators

open Lr

variable {g : Grammar} {e atom : Nat} {ops : List Nat} {options : ParseOptions} {t : ParseTable}
  {ds : List Diagnostic} {s : Nat} {st : ItemState}

/-- The precedence of the rule of an operator is that of the operator. -/
theorem rulePrecedence (h : g.Operators e atom ops) (hg : g.WellFormed) {op rule : Nat}
    (hop : op ∈ ops) (hrule : rule < g.ruleList.length)
    (hright : (Productions.ofGrammar g).rightOf rule = [e, op, e]) :
    (policyOf g).rulePrecedence rule = (policyOf g).terminalPrecedence op := by
  have hr : g.ruleList[rule]? = some _ := List.getElem?_eq_getElem hrule
  have hle : g.terminals ≤ e := (h.productions hg).le_operand
  refine rulePrecedence_of_last hr (h.rule_cases hr).2.1 ?_
  rw [← Productions.rightOf_rule g hr, hright]
  simp [List.findRev?, h.op_lt op hop, Nat.not_lt.mpr hle]

/-- **What a state does that may reduce one operator and shift another.** -/
theorem entry_operator (h : g.Operators e atom ops) (hg : g.WellFormed) {op q rule u : Nat}
    (hop : op ∈ ops) (hq : q ∈ ops) (hrule : rule < g.ruleList.length)
    (hright : (Productions.ofGrammar g).rightOf rule = [e, op, e]) :
    g.GroupsLeft q op ∧ ((policyOf g).entry s q (some u) [rule]).1 = .reduce rule ∧
        (((policyOf g).entry s q (some u) [rule]).2 = [] ∨
          ∃ d ∈ g.priorityList, d.assoc = .nonAssoc) ∨
      g.GroupsRight op q ∧ (policyOf g).entry s q (some u) [rule] = (.shift u, []) := by
  obtain ⟨assoc, -, -, hop'⟩ := terminalPrecedence_of_listed (h.listed op hop) (h.op_lt op hop)
  obtain ⟨assoc', hassoc, ⟨d, hd, hdassoc⟩, hq'⟩ :=
    terminalPrecedence_of_listed (h.listed q hq) (h.op_lt q hq)
  have hmin : resolveReduceReduce [rule] = some rule := rfl
  have houtcomes := resolve_cases (p := op) assoc hassoc
  rw [← hop', ← hq', ← h.rulePrecedence hg hop hrule hright] at houtcomes
  rcases houtcomes with ⟨hgroups, hreduce | ⟨hnon, rfl⟩⟩ | ⟨hgroups, hshift⟩
  · rw [Policy.entry_of_rule hmin hrule, Policy.outcome, hreduce]
    exact Or.inl ⟨hgroups, rfl, Or.inl rfl⟩
  · rw [Policy.entry_of_rule hmin hrule, Policy.outcome, hnon]
    exact Or.inl ⟨hgroups, rfl, Or.inr ⟨d, hd, hdassoc⟩⟩
  · rw [Policy.entry_of_rule hmin hrule, Policy.outcome, hshift]
    exact Or.inr ⟨hgroups, rfl⟩

/-- **A state may reduce at most one production.**  Where there is one, only operators are shifted,
after an operand. -/
theorem candidates_cases (h : g.Operators e atom ops) (hg : g.WellFormed)
    (hs : (automatonOf g).states[s]? = some st) : (∀ x, candidatesAt g s x = []) ∨
      ∃ rule, (∀ x, candidatesAt g s x = [] ∨ candidatesAt g s x = [rule]) ∧
        st.ShiftsOperators (.ofGrammar g) atom ops rule := by
  have hp := h.productions hg
  have ha : (automatonOf g).Proper (.ofGrammar g) := Automaton.proper_ofProductions hp.proper
  have hcomplete : ∀ {x r : Nat}, r ∈ candidatesAt g s x →
      ∃ i ∈ st.items, i.next? (.ofGrammar g) = none ∧ i.rule = r := by
    intro x r hr
    obtain ⟨i, hahead, hnone, hrule⟩ := (mem_candidatesAt hs).mp hr
    exact ⟨i, hahead.mem_items hp.proper ha hs, hnone, hrule⟩
  rcases hp.state_cases hs with hitems | ⟨rule, hitems, hnext⟩
  · refine Or.inl fun x => List.eq_nil_iff_forall_not_mem.mpr fun r hr => ?_
    obtain ⟨i, hi, hnone, -⟩ := hcomplete hr
    exact hitems i hi hnone
  · refine Or.inr ⟨rule, fun x => ?_, hnext⟩
    have hnodup := nodup_candidatesAt hs x
    have hreplicate : candidatesAt g s x = List.replicate (candidatesAt g s x).length rule := by
      refine List.eq_replicate_of_mem fun r hr => ?_
      obtain ⟨i, hi, hnone, rfl⟩ := hcomplete hr
      exact hitems i hi hnone
    rw [hreplicate, List.nodup_replicate] at hnodup
    rcases Nat.le_one_iff_eq_zero_or_eq_one.mp hnodup with hzero | hone
    · exact Or.inl (List.length_eq_zero_iff.mp hzero)
    · rw [hone] at hreplicate
      exact Or.inr hreplicate

/-- A production that may be reduced is the only one. -/
theorem candidates_of_completes (h : g.Operators e atom ops) (hg : g.WellFormed)
    (hs : (automatonOf g).states[s]? = some st) {x rule : Nat}
    (hcompletes : Completes (.ofGrammar g) (automatonOf g) g.inputList s x rule) :
    candidatesAt g s x = [rule] ∧
      (∀ y, candidatesAt g s y = [] ∨ candidatesAt g s y = [rule]) ∧
      st.ShiftsOperators (.ofGrammar g) atom ops rule := by
  have hmem : rule ∈ candidatesAt g s x := (mem_candidatesAt hs).mpr hcompletes
  rcases h.candidates_cases hg hs with hnil | ⟨rule', hcases, hnext⟩
  · rw [hnil] at hmem
    cases hmem
  · have heq := (hcases x).resolve_left fun hnil => by
      rw [hnil] at hmem
      cases hmem
    rw [heq] at hmem
    obtain rfl := List.mem_singleton.mp hmem
    exact ⟨heq, hcases, hnext⟩

/-- **Without levels that do not associate there are no conflicts.** -/
theorem conflicts_eq_nil (h : g.Operators e atom ops) (hg : g.WellFormed)
    (hbuild : build g options = .ok (t, ds)) (hassoc : ∀ d ∈ g.priorityList, d.assoc ≠ .nonAssoc) :
    t.conflicts = [] := by
  have hp := h.productions hg
  have ha : (automatonOf g).Proper (.ofGrammar g) := Automaton.proper_ofProductions hp.proper
  refine (conflicts_of_build hbuild).mpr ?_
  intro s x st hs hx
  have hnone : ∀ shift, ((policyOf g).entry s x shift []).2 = [] := fun shift => by
    cases shift <;> rfl
  rw [entryOf_eq]
  rcases h.candidates_cases hg hs with hnil | ⟨rule, hcases, hnext⟩
  · rw [hnil]
    exact hnone _
  · rcases hcases x with heq | heq
    · rw [heq]
      exact hnone _
    rw [heq]
    cases hgoto : st.goto? x with
    | none => rfl
    | some u =>
      obtain ⟨i, hi, hinext⟩ := ha.goto_next hs hgoto
      obtain ⟨hop, hatom⟩ := hnext i hi x hinext
      rcases Nat.lt_or_ge rule g.ruleList.length with hlt | hge
      · obtain ⟨op, hop', hright⟩ := (hp.right hlt).resolve_left hatom
        rcases h.entry_operator (s := s) (u := u) hg hop' hop hlt hright with
          ⟨-, -, hsettled | ⟨d, hd, hnon⟩⟩ | ⟨-, hshift⟩
        · exact hsettled
        · exact absurd hnon (hassoc d hd)
        · rw [hshift]
      · rw [Policy.entry_of_input rfl hge]
        rfl

/-! ## 5. Actions -/

section Actions

variable {start : Nat} {σ : List Nat}

/-- What is viable before a terminal may be followed by it. -/
theorem ahead (h : g.Operators e atom ops) (hg : g.WellFormed)
    (hstart : (automatonOf g).starts[0]? = some start) {i : Item} {b : Nat} {w : List Nat}
    (hviable : Viable (.ofGrammar g) g.ruleList.length 0 σ i (b :: w))
    (hpath : Path (automatonOf g) start σ s) :
    Ahead (.ofGrammar g) (automatonOf g) g.inputList s i b := by
  have hp := (h.productions hg).proper
  obtain ⟨input, hinput, -, heoi⟩ := h.input
  have hi : g.inputList[0]? = some input := by rw [hinput]; rfl
  have hfollow := mayFollow_eoi hg hi heoi
  obtain ⟨b', w', heq, hahead⟩ := Viable.ahead (n := 0) hp (Automaton.proper_ofProductions hp)
    hstart hfollow hviable hpath
  obtain ⟨rfl, -⟩ := List.cons.inj heq
  exact hahead

/-- A rule whose right side was read may be reduced. -/
theorem completes (h : g.Operators e atom ops) (hg : g.WellFormed)
    (hstart : (automatonOf g).starts[0]? = some start) (hσ : BeforeOperand e ops σ) {rule b : Nat}
    (hrule : rule < g.ruleList.length) (hb : b = 0 ∨ b ∈ ops)
    (hpath : Path (automatonOf g) start
      (((Productions.ofGrammar g).rightOf rule).reverse ++ σ) s) :
    Completes (.ofGrammar g) (automatonOf g) g.inputList s b rule := by
  obtain ⟨w, hviable⟩ := (h.productions hg).viable_of_before hσ hrule hb
  exact ⟨_, h.ahead hg hstart hviable.complete hpath, List.getElem?_eq_none (Nat.le_refl _), rfl⟩

/-- After an operand every operator can be shifted. -/
theorem exists_goto_op (h : g.Operators e atom ops) (hg : g.WellFormed)
    (hstart : (automatonOf g).starts[0]? = some start) (hσ : BeforeOperand e ops σ) {q : Nat}
    (hq : q ∈ ops) (hpath : Path (automatonOf g) start (e :: σ) s)
    (hs : (automatonOf g).states[s]? = some st) : ∃ u, st.goto? q = some u := by
  have hp := h.productions hg
  have ha : (automatonOf g).Proper (.ofGrammar g) := Automaton.proper_ofProductions hp.proper
  obtain ⟨rule, hrule, hright⟩ := hp.exists_op q hq
  obtain ⟨w, hviable⟩ := hp.viable_of_before hσ hrule (Or.inl rfl)
  have hsplit : (⟨rule, 0⟩ : Item).rest (.ofGrammar g) = [e] ++ [q, e] := hright
  have hahead := h.ahead hg hstart (hviable.advance hsplit) hpath
  refine ha.exists_goto hs (hahead.mem_items hp.proper ha hs) ?_
  rw [Item.next?, hright]
  rfl

/-- Where nothing is shifted, what may be reduced is reduced, or accepted. -/
theorem action_of_completes (h : g.Operators e atom ops) (hg : g.WellFormed)
    (hbuild : build g options = .ok (t, ds)) (hs : (automatonOf g).states[s]? = some st)
    {b rule : Nat} (hcompletes : Completes (.ofGrammar g) (automatonOf g) g.inputList s b rule)
    (hgoto : st.goto? b = none) : t.action s b = (policyOf g).reduceAction rule := by
  obtain ⟨i, hahead, -⟩ := id hcompletes
  rw [action_of_build hbuild hs hahead.lt_terminals, entryOf_eq, hgoto,
    (h.candidates_of_completes hg hs hcompletes).1]
  rfl

theorem reduceAction_rule {rule : Nat} (hrule : rule < g.ruleList.length) :
    (policyOf g).reduceAction rule = .reduce rule :=
  if_pos hrule

/-- **Where an operand is expected**, an atom is shifted. -/
theorem action_operand (h : g.Operators e atom ops) (hg : g.WellFormed)
    (hbuild : build g options = .ok (t, ds)) (hstart : (automatonOf g).starts[0]? = some start)
    (hσ : BeforeOperand e ops σ) (hpath : Path (automatonOf g) start σ s) :
    ∃ u, t.action s atom = .shift u := by
  have hp := h.productions hg
  have ha : (automatonOf g).Proper (.ofGrammar g) := Automaton.proper_ofProductions hp.proper
  obtain ⟨st, hs⟩ := hpath.exists_state ha hstart
  obtain ⟨rule, hrule, hright⟩ := hp.exists_atom
  obtain ⟨w, hviable⟩ := hp.viable_of_before hσ hrule (Or.inl rfl)
  obtain ⟨u, hu⟩ := ha.exists_goto (x := atom) hs
    ((h.ahead hg hstart hviable hpath).mem_items hp.proper ha hs) (by rw [Item.next?, hright]; rfl)
  refine ⟨u, ?_⟩
  rw [action_of_build hbuild hs h.atom_lt, entryOf_eq, hu]
  rcases h.candidates_cases hg hs with hnil | ⟨rule', -, hnext⟩
  · rw [hnil]
    rfl
  · -- an operand is expected, so nothing can be reduced
    obtain ⟨i, w, hrest, hi⟩ := hp.exists_viable hσ
    have hmem := (h.ahead hg hstart hi hpath).mem_items hp.proper ha hs
    exact absurd rfl (hp.op_ne (hnext i hmem e (Item.next_of_rest hrest).1).1)

/-- **After an atom**, its rule is reduced. -/
theorem action_atom (h : g.Operators e atom ops) (hg : g.WellFormed)
    (hbuild : build g options = .ok (t, ds)) (hstart : (automatonOf g).starts[0]? = some start)
    (hσ : BeforeOperand e ops σ) (hpath : Path (automatonOf g) start (atom :: σ) s) {b : Nat}
    (hb : b = 0 ∨ b ∈ ops) : ∃ rule, t.action s b = .reduce rule ∧
      (Productions.ofGrammar g).rightOf rule = [atom] := by
  have hp := h.productions hg
  have ha : (automatonOf g).Proper (.ofGrammar g) := Automaton.proper_ofProductions hp.proper
  obtain ⟨st, hs⟩ := hpath.exists_state ha hstart
  obtain ⟨rule, hrule, hright⟩ := hp.exists_atom
  have hcompletes := h.completes hg hstart hσ hrule hb (by rw [hright]; exact hpath)
  have hgoto : st.goto? b = none := by
    cases hgoto : st.goto? b with
    | none => rfl
    | some u =>
      obtain ⟨i, hi, hnext⟩ := ha.goto_next hs hgoto
      exact absurd hright ((h.candidates_of_completes hg hs hcompletes).2.2 i hi b hnext).2
  refine ⟨rule, ?_, hright⟩
  rw [h.action_of_completes hg hbuild hs hcompletes hgoto, reduceAction_rule hrule]

/-- **After an operand that nothing precedes**, the end of the input is accepted, and operators are
shifted. -/
theorem action_first (h : g.Operators e atom ops) (hg : g.WellFormed)
    (hbuild : build g options = .ok (t, ds)) (hstart : (automatonOf g).starts[0]? = some start)
    (hpath : Path (automatonOf g) start [e] s) :
    t.action s 0 = .accept ∧ ∀ q ∈ ops, ∃ u, t.action s q = .shift u := by
  have hp := h.productions hg
  have ha : (automatonOf g).Proper (.ofGrammar g) := Automaton.proper_ofProductions hp.proper
  obtain ⟨st, hs⟩ := hpath.exists_state ha hstart
  have hright : (Productions.ofGrammar g).rightOf g.ruleList.length = [e] := hp.input
  have hcompletes : Completes (.ofGrammar g) (automatonOf g) g.inputList s 0 g.ruleList.length := by
    refine ⟨_, h.ahead hg hstart Viable.start.complete ?_, List.getElem?_eq_none (Nat.le_refl _), rfl⟩
    rw [hright]
    exact hpath
  refine ⟨?_, fun q hq => ?_⟩
  · rw [h.action_of_completes hg hbuild hs hcompletes (goto?_zero hp.proper ha hs)]
    exact if_neg (Nat.lt_irrefl _)
  · obtain ⟨u, hu⟩ := h.exists_goto_op hg hstart .nil hq hpath hs
    refine ⟨u, ?_⟩
    rw [action_of_build hbuild hs (h.op_lt q hq), entryOf_eq, hu]
    rcases (h.candidates_of_completes hg hs hcompletes).2.1 q with heq | heq
    · rw [heq]
      rfl
    · have hinput : (policyOf g).rules ≤ g.ruleList.length := Nat.le_refl _
      rw [heq, Policy.entry_of_input rfl hinput]

/-- **After the right operand of an operator**, its rule is reduced before the end of the input; and
before an operator it is reduced or the operator is shifted, as they group. -/
theorem action_operator (h : g.Operators e atom ops) (hg : g.WellFormed)
    (hbuild : build g options = .ok (t, ds)) (hstart : (automatonOf g).starts[0]? = some start)
    (hσ : BeforeOperand e ops σ) {op : Nat} (hop : op ∈ ops)
    (hpath : Path (automatonOf g) start (e :: op :: e :: σ) s) :
    ∃ rule, (Productions.ofGrammar g).rightOf rule = [e, op, e] ∧ t.action s 0 = .reduce rule ∧
      ∀ q ∈ ops, g.GroupsLeft q op ∧ t.action s q = .reduce rule ∨
        g.GroupsRight op q ∧ ∃ u, t.action s q = .shift u := by
  have hp := h.productions hg
  have ha : (automatonOf g).Proper (.ofGrammar g) := Automaton.proper_ofProductions hp.proper
  obtain ⟨st, hs⟩ := hpath.exists_state ha hstart
  obtain ⟨rule, hrule, hright⟩ := hp.exists_op op hop
  have hcompletes : ∀ {b : Nat}, b = 0 ∨ b ∈ ops →
      Completes (.ofGrammar g) (automatonOf g) g.inputList s b rule := fun hb =>
    h.completes hg hstart hσ hrule hb (by rw [hright]; exact hpath)
  refine ⟨rule, hright, ?_, fun q hq => ?_⟩
  · rw [h.action_of_completes hg hbuild hs (hcompletes (Or.inl rfl)) (goto?_zero hp.proper ha hs),
      reduceAction_rule hrule]
  · obtain ⟨u, hu⟩ := h.exists_goto_op hg hstart (.cons hop hσ) hq hpath hs
    rw [action_of_build hbuild hs (h.op_lt q hq), entryOf_eq, hu,
      (h.candidates_of_completes hg hs (hcompletes (Or.inr hq))).1]
    rcases h.entry_operator (s := s) (u := u) hg hop hq hrule hright with
      ⟨hgroups, hreduce, -⟩ | ⟨hgroups, hshift⟩
    · exact Or.inl ⟨hgroups, hreduce⟩
    · exact Or.inr ⟨hgroups, u, by rw [hshift]⟩

end Actions

end Grammar.Operators

end GrammarTables
