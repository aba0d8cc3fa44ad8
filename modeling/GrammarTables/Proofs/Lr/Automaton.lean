import GrammarTables.Lr.Automaton
import GrammarTables.Proofs.Exploration
import GrammarTables.Proofs.Lr.Productions
/-
# The automaton of items: what its states are

A state contains its kernel and, with an item that expects a nonterminal, the initial items of that
nonterminal.  Moving the dot over the next symbol of an item leads to a state whose kernel consists
of exactly the items moved (`Automaton.Proper`).
-/

namespace GrammarTables.Lr

variable {p : Productions}

/-! ## 1. Items -/

namespace Item

theorem eq_of_eq {i j : Item} (hrule : i.rule = j.rule) (hdot : i.dot = j.dot) : i = j := by
  cases i
  cases j
  simp only at hrule hdot
  rw [hrule, hdot]

theorem ranks_before : Ranks Item.before where
  irrefl a := by simp [before]
  trans h₁ h₂ := by
    simp only [before, Bool.or_eq_true, Bool.and_eq_true, decide_eq_true_eq] at *
    omega
  total {a b} h₁ h₂ := by
    simp only [before, Bool.or_eq_false_iff, Bool.and_eq_false_iff, decide_eq_false_iff_not] at *
    exact eq_of_eq (by omega) (by omega)

/-- The dot stands in the right side of a production. -/
def Valid (p : Productions) (i : Item) : Prop :=
  i.rule < p.size ∧ i.dot ≤ (p.rightOf i.rule).length

/-- What stands after the dot. -/
def rest (p : Productions) (i : Item) : List Nat := (p.rightOf i.rule).drop i.dot

theorem rest_of_next {i : Item} {x : Nat} (h : i.next? p = some x) :
    i.rest p = x :: i.advance.rest p := by
  obtain ⟨hlt, hx⟩ := List.getElem?_eq_some_iff.mp h
  rw [rest, List.drop_eq_getElem_cons hlt, hx]
  rfl

theorem next_of_rest {i : Item} {x : Nat} {xs : List Nat} (h : i.rest p = x :: xs) :
    i.next? p = some x ∧ i.advance.rest p = xs := by
  have hget : (i.rest p)[0]? = some x := by rw [h]; rfl
  have hnext : i.next? p = some x := by simpa [rest, next?] using hget
  rw [rest_of_next hnext] at h
  exact ⟨hnext, (List.cons.inj h).2⟩

theorem next_of_rest_nil {i : Item} (h : i.rest p = []) : i.next? p = none :=
  List.getElem?_eq_none (List.drop_eq_nil_iff.mp h)

theorem valid_advance {i : Item} {x : Nat} (h : i.Valid p) (hx : i.next? p = some x) :
    i.advance.Valid p :=
  ⟨h.1, (List.getElem?_eq_some_iff.mp hx).1⟩

theorem next_mem {i : Item} {x : Nat} (h : i.next? p = some x) : x ∈ p.rightOf i.rule :=
  List.mem_of_getElem? h

end Item

/-- As many items as `itemCount` says. -/
theorem exists_finset_of_valid (hp : p.Proper) :
    ∃ s : Finset Item, s.card ≤ Automaton.itemCount p ∧ ∀ i : Item, i.Valid p → i ∈ s := by
  refine ⟨(p.right.toList.zipIdx.flatMap fun e =>
    (List.range (e.1.length + 1)).map (Item.mk e.2)).toFinset, ?_, ?_⟩
  · refine (List.toFinset_card_le _).trans (Nat.le_of_eq ?_)
    have hsum : ∀ (right : List (List Nat)) (n k : Nat),
        k + ((right.zipIdx n).flatMap fun e =>
          (List.range (e.1.length + 1)).map (Item.mk e.2)).length
          = right.foldl (fun n xs => n + (xs.length + 1)) k := by
      intro right
      induction right with
      | nil => intro n k; rfl
      | cons xs rest ih =>
        intro n k
        rw [List.zipIdx_cons, List.flatMap_cons, List.length_append, List.foldl_cons, ← ih (n + 1)]
        simp only [List.length_map, List.length_range]
        omega
    have h := hsum p.right.toList 0 0
    rw [Nat.zero_add] at h
    rw [h, Automaton.itemCount, Array.foldl_toList]
  · rintro ⟨rule, dot⟩ ⟨hrule, hdot⟩
    simp only at hrule hdot
    have hlt : rule < p.right.size := hp.size_right ▸ hrule
    rw [List.mem_toFinset, List.mem_flatMap]
    refine ⟨(p.right[rule], rule), ?_, ?_⟩
    · rw [List.mem_zipIdx_iff_getElem?, Array.getElem?_toList, Array.getElem?_eq_getElem hlt]
    · have hright : p.rightOf rule = p.right[rule] := by
        simp [Productions.rightOf, Array.getD_eq_getD_getElem?, hlt]
      rw [hright] at hdot
      exact List.mem_map.mpr ⟨dot, List.mem_range.mpr (Nat.lt_succ_of_le hdot), rfl⟩

/-! ## 2. Closures -/

theorem mem_initialItems {x : Nat} {i : Item} :
    i ∈ initialItems p x ↔ i.rule ∈ p.rulesOf x ∧ i.dot = 0 := by
  rw [initialItems, List.mem_map]
  constructor
  · rintro ⟨rule, hrule, rfl⟩
    exact ⟨hrule, rfl⟩
  · rintro ⟨hrule, hdot⟩
    exact ⟨i.rule, hrule, Item.eq_of_eq rfl hdot.symm⟩

theorem mem_expected {items : List Item} {x : Nat} :
    x ∈ expected p items ↔ ∃ i ∈ items, i.next? p = some x ∧ p.terminals ≤ x := by
  simp only [expected, List.mem_filterMap, Option.filter_eq_some_iff, Productions.isNonterminal,
    decide_eq_true_eq]

/-- The exploration that finds the expected nonterminals. -/
theorem explores_expansions (hp : p.Proper) (kernel : List Item) :
    Graph.Explores (fun x => (expected p (initialItems p x)).map (0, ·)) (expected p kernel)
      (Graph.explore p.byLeft.size (fun x => (expected p (initialItems p x)).map (0, ·))
        (expected p kernel)).1
      (Graph.explore p.byLeft.size (fun x => (expected p (initialItems p x)).map (0, ·))
        (expected p kernel)).2 := by
  have hlt : ∀ {items : List Item} {x : Nat}, x ∈ expected p items → x < p.byLeft.size := by
    intro items x hx
    obtain ⟨i, -, hnext, -⟩ := mem_expected.mp hx
    exact Nat.lt_of_lt_of_le (hp.right (Item.next_mem hnext)).2 hp.symbols_le
  refine Graph.explores (P := fun x => x < p.byLeft.size) (fun x hx => hlt hx) ?_
    (s := Finset.range p.byLeft.size) (fun x hx => Finset.mem_range.mpr hx)
    (Nat.le_of_eq (Finset.card_range _))
  intro x _ e he
  obtain ⟨y, hy, rfl⟩ := List.mem_map.mp he
  exact hlt hy

theorem mem_closure {kernel : List Item} {i : Item} : i ∈ closure p kernel ↔
    i ∈ kernel ∨ ∃ x ∈ expansions p kernel, i.rule ∈ p.rulesOf x ∧ i.dot = 0 := by
  simp only [closure, List.mem_append, List.mem_flatMap, mem_initialItems]

/-- A nonterminal that an item of the closure expects is expanded. -/
theorem mem_expansions_of_next (hp : p.Proper) {kernel : List Item} {i : Item} {x : Nat}
    (hi : i ∈ closure p kernel) (hnext : i.next? p = some x) (hx : p.terminals ≤ x) :
    x ∈ expansions p kernel := by
  have h := explores_expansions hp kernel
  rw [expansions, Array.mem_toList_iff]
  rcases mem_closure.mp hi with hi | ⟨y, hy, hrule, hdot⟩
  · exact h.mem_of_start (mem_expected.mpr ⟨i, hi, hnext, hx⟩)
  · rw [expansions, Array.mem_toList_iff] at hy
    have hmem : x ∈ expected p (initialItems p y) :=
      mem_expected.mpr ⟨i, mem_initialItems.mpr ⟨hrule, hdot⟩, hnext, hx⟩
    exact h.mem_of_next hy (e := (0, x)) (List.mem_map.mpr ⟨x, hmem, rfl⟩)

/-- What is expanded is expected by an item of the closure. -/
theorem exists_next_of_mem_expansions (hp : p.Proper) {kernel : List Item} {x : Nat}
    (hx : x ∈ expansions p kernel) :
    x < p.symbols ∧ ∃ i ∈ closure p kernel, i.next? p = some x := by
  have h := explores_expansions hp kernel
  have hfound := h.found (P := fun x => x ∈ expansions p kernel ∧ x < p.symbols ∧
    ∃ i ∈ closure p kernel, i.next? p = some x) ?_ ?_ x
  · exact (hfound (Array.mem_toList_iff.mp hx)).2
  · intro y hy
    obtain ⟨i, hi, hnext, hle⟩ := mem_expected.mp hy
    have hmem : i ∈ closure p kernel := mem_closure.mpr (Or.inl hi)
    exact ⟨mem_expansions_of_next hp hmem hnext hle, (hp.right (Item.next_mem hnext)).2, i, hmem,
      hnext⟩
  · rintro y ⟨hy, -, -⟩ e he
    obtain ⟨z, hz, rfl⟩ := List.mem_map.mp he
    obtain ⟨i, hi, hnext, hle⟩ := mem_expected.mp hz
    obtain ⟨hrule, hdot⟩ := mem_initialItems.mp hi
    have hmem : i ∈ closure p kernel := mem_closure.mpr (Or.inr ⟨y, hy, hrule, hdot⟩)
    exact ⟨mem_expansions_of_next hp hmem hnext hle, (hp.right (Item.next_mem hnext)).2, i, hmem,
      hnext⟩

/-- An item that is not in the kernel is an initial item of a rule that another one expects. -/
theorem of_mem_closure (hp : p.Proper) {kernel : List Item} {i : Item} (hi : i ∈ closure p kernel)
    (hkernel : i ∉ kernel) : i.dot = 0 ∧ i.rule < p.rules ∧
      ∃ j ∈ closure p kernel, j.next? p = some (p.leftOf i.rule) := by
  obtain ⟨x, hx, hrule, hdot⟩ := (mem_closure.mp hi).resolve_left hkernel
  obtain ⟨hlt, j, hj, hnext⟩ := exists_next_of_mem_expansions hp hx
  obtain ⟨-, rfl⟩ := hp.mem_rulesOf.mp hrule
  exact ⟨hdot, hp.lt_rules hlt hrule, j, hj, hnext⟩

theorem valid_of_mem_closure (hp : p.Proper) {kernel : List Item} (h : ∀ i ∈ kernel, i.Valid p) :
    ∀ i ∈ closure p kernel, i.Valid p := by
  intro i hi
  rcases mem_closure.mp hi with hi | ⟨x, -, hrule, hdot⟩
  · exact h i hi
  · exact ⟨(hp.mem_rulesOf.mp hrule).1, by omega⟩

/-! ## 3. Successors -/

theorem mem_successors {kernel kernel' : List Item} {x : Nat} :
    (x, kernel') ∈ successors p kernel ↔ (∃ i ∈ closure p kernel, i.next? p = some x) ∧
      kernel' = sortBy Item.before
        (((closure p kernel).filter fun i => i.next? p = some x).map Item.advance) := by
  simp only [successors, List.mem_map, mem_ascending, List.mem_filterMap, Prod.mk.injEq]
  constructor
  · rintro ⟨y, hy, rfl, rfl⟩
    exact ⟨hy, rfl⟩
  · rintro ⟨hx, rfl⟩
    exact ⟨x, hx, rfl, rfl⟩

theorem mem_sorted_advance {items : List Item} {x : Nat} {j : Item} :
    j ∈ sortBy Item.before ((items.filter fun i => i.next? p = some x).map Item.advance) ↔
      ∃ i ∈ items, i.next? p = some x ∧ j = i.advance := by
  rw [Item.ranks_before.mem_sortBy, List.mem_map]
  simp only [List.mem_filter, decide_eq_true_eq]
  constructor
  · rintro ⟨i, ⟨hi, hnext⟩, rfl⟩
    exact ⟨i, hi, hnext, rfl⟩
  · rintro ⟨i, hi, hnext, rfl⟩
    exact ⟨i, ⟨hi, hnext⟩, rfl⟩

/-- An ordered list of items of the productions. -/
def KernelValid (p : Productions) (kernel : List Item) : Prop :=
  kernel.Pairwise (Item.before · · = true) ∧ ∀ i ∈ kernel, i.Valid p

theorem kernelValid_successor (hp : p.Proper) {kernel : List Item} (h : KernelValid p kernel)
    {e : Nat × List Item} (he : e ∈ successors p kernel) : KernelValid p e.2 := by
  obtain ⟨x, kernel'⟩ := e
  obtain ⟨-, rfl⟩ := mem_successors.mp he
  refine ⟨Item.ranks_before.pairwise_sortBy _, ?_⟩
  intro j hj
  obtain ⟨i, hi, hnext, rfl⟩ := mem_sorted_advance.mp hj
  exact Item.valid_advance (valid_of_mem_closure hp h.2 i hi) hnext

theorem kernelValid_start {kernel : List Item}
    (h : kernel ∈ p.startRules.map fun rule => [⟨rule, 0⟩]) : KernelValid p kernel := by
  obtain ⟨rule, hrule, rfl⟩ := List.mem_map.mp h
  obtain ⟨i, hi, rfl⟩ := List.mem_map.mp hrule
  refine ⟨by simp, ?_⟩
  intro i hi'
  obtain rfl := List.mem_singleton.mp hi'
  have := List.mem_range.mp hi
  exact ⟨by simp only; omega, Nat.zero_le _⟩

/-- The exploration that finds the states. -/
theorem explores_kernels (hp : p.Proper) :
    Graph.Explores (successors p) (p.startRules.map fun rule => [⟨rule, 0⟩])
      (Graph.explore (Nat.pow 2 (Automaton.itemCount p)) (successors p)
        (p.startRules.map fun rule => [⟨rule, 0⟩])).1
      (Graph.explore (Nat.pow 2 (Automaton.itemCount p)) (successors p)
        (p.startRules.map fun rule => [⟨rule, 0⟩])).2 := by
  obtain ⟨items, hcard, hitems⟩ := exists_finset_of_valid hp
  obtain ⟨lists, hlists, hmem⟩ := Graph.exists_finset_of_ordered Item.ranks_before items
  refine Graph.explores (P := KernelValid p) (fun k hk => kernelValid_start hk)
    (fun k hk e he => kernelValid_successor hp hk he) (s := lists)
    (fun k hk => hmem k hk.1 fun i hi => hitems i (hk.2 i hi)) ?_
  exact Nat.le_trans hlists (Nat.pow_le_pow_right (by decide) hcard)

/-! ## 4. The automaton -/

/-- What holds of the automaton of some productions. -/
structure Automaton.Proper (p : Productions) (a : Automaton) : Prop where
  kernel : ∀ {s : Nat} {st : ItemState}, a.states[s]? = some st → KernelValid p st.kernel
  items : ∀ {s : Nat} {st : ItemState}, a.states[s]? = some st → st.items = closure p st.kernel
  goto : ∀ {s t x : Nat} {st : ItemState}, a.states[s]? = some st → st.goto? x = some t →
    ∃ st', a.states[t]? = some st' ∧
      ∀ j, j ∈ st'.kernel ↔ ∃ i ∈ st.items, i.next? p = some x ∧ j = i.advance
  exists_goto : ∀ {s x : Nat} {st : ItemState} {i : Item}, a.states[s]? = some st →
    i ∈ st.items → i.next? p = some x → ∃ t, st.goto? x = some t
  goto_next : ∀ {s t x : Nat} {st : ItemState}, a.states[s]? = some st → st.goto? x = some t →
    ∃ i ∈ st.items, i.next? p = some x
  starts : ∀ {i s : Nat}, a.starts[i]? = some s →
    ∃ st, a.states[s]? = some st ∧ st.kernel = [⟨p.rules + i, 0⟩]
  length_starts : a.starts.length = p.size - p.rules

namespace Automaton

theorem getElem?_states {keys : Array (List Item)} {rows : Array (List (Nat × Nat))} {s : Nat}
    {st : ItemState} :
    ((keys.zip rows).map fun (kernel, gotos) =>
      ({ kernel, items := closure p kernel, gotos } : ItemState))[s]? = some st ↔
    keys[s]? = some st.kernel ∧ rows[s]? = some st.gotos ∧ st.items = closure p st.kernel := by
  rw [Array.getElem?_map, Option.map_eq_some_iff]
  constructor
  · rintro ⟨⟨kernel, gotos⟩, hzip, rfl⟩
    obtain ⟨hk, hr⟩ := Array.getElem?_zip_eq_some.mp hzip
    exact ⟨hk, hr, rfl⟩
  · rintro ⟨hk, hr, hitems⟩
    refine ⟨(st.kernel, st.gotos), Array.getElem?_zip_eq_some.mpr ⟨hk, hr⟩, ?_⟩
    simp only [← hitems]

/-- A row of the exploration gives the states after each symbol. -/
theorem goto_of_row {keys : Array (List Item)} {st : ItemState} {x t : Nat}
    (hrow : Graph.RowOf (successors p) keys st.kernel st.gotos) (h : st.goto? x = some t) :
    ∃ kernel, (x, kernel) ∈ successors p st.kernel ∧ keys[t]? = some kernel := by
  obtain ⟨⟨y, u⟩, hfind, rfl⟩ := Option.map_eq_some_iff.mp h
  have hx := List.find?_some hfind
  simp only [decide_eq_true_eq] at hx
  subst hx
  have hmem : (y, keys[u]?) ∈ (successors p st.kernel).map fun e => (e.1, some e.2) := by
    rw [← hrow]
    exact List.mem_map.mpr ⟨(y, u), List.mem_of_find?_eq_some hfind, rfl⟩
  obtain ⟨⟨z, kernel⟩, he, heq⟩ := List.mem_map.mp hmem
  obtain ⟨rfl, hkey⟩ := Prod.mk.inj heq
  exact ⟨kernel, he, hkey.symm⟩

theorem exists_goto_of_row {keys : Array (List Item)} {st : ItemState} {x : Nat}
    {kernel : List Item} (hrow : Graph.RowOf (successors p) keys st.kernel st.gotos)
    (h : (x, kernel) ∈ successors p st.kernel) : ∃ t, st.goto? x = some t := by
  have hmem : (x, some kernel) ∈ st.gotos.map fun e => (e.1, keys[e.2]?) := by
    rw [hrow]
    exact List.mem_map.mpr ⟨(x, kernel), h, rfl⟩
  obtain ⟨⟨y, t⟩, he, heq⟩ := List.mem_map.mp hmem
  obtain ⟨rfl, -⟩ := Prod.mk.inj heq
  have hsome : (st.gotos.find? fun e => e.1 = y).isSome := by
    rw [List.find?_isSome]
    exact ⟨(y, t), he, by simp⟩
  obtain ⟨e, hfind⟩ := Option.isSome_iff_exists.mp hsome
  exact ⟨e.2, by rw [ItemState.goto?, hfind]; rfl⟩

/-- **What holds of the kernels of the starts and is passed on by reading a symbol holds of every
kernel.** -/
theorem kernel_induction (hp : p.Proper) {P : List Item → Prop}
    (hstart : ∀ rule ∈ p.startRules, P [⟨rule, 0⟩])
    (hsuccessor : ∀ kernel, P kernel → ∀ e ∈ successors p kernel, P e.2) {s : Nat} {st : ItemState}
    (hs : (ofProductions p).states[s]? = some st) : P st.kernel := by
  have hkeys := (explores_kernels hp).found (P := P) ?_ hsuccessor
  · exact hkeys _ (Array.mem_of_getElem? (getElem?_states.mp hs).1)
  · intro kernel hkernel
    obtain ⟨rule, hrule, rfl⟩ := List.mem_map.mp hkernel
    exact hstart rule hrule

/-- **The states have different kernels.** -/
theorem kernel_inj (hp : p.Proper) {s t : Nat} {st st' : ItemState}
    (hs : (ofProductions p).states[s]? = some st) (ht : (ofProductions p).states[t]? = some st')
    (heq : st.kernel = st'.kernel) : s = t := by
  have hs' := (getElem?_states.mp hs).1
  have ht' := (getElem?_states.mp ht).1
  rw [← Array.getElem?_toList] at hs' ht'
  rw [← heq] at ht'
  exact (List.getElem?_inj (List.getElem?_eq_some_iff.mp hs').1 (explores_kernels hp).nodup).mp
    (hs'.trans ht'.symm)

/-- **The automaton of proper productions.** -/
theorem proper_ofProductions (hp : p.Proper) : (ofProductions p).Proper p := by
  have h := explores_kernels hp
  set numbers := (Graph.explore (Nat.pow 2 (itemCount p)) (successors p)
    (p.startRules.map fun rule => [⟨rule, 0⟩])).1
  set found := (Graph.explore (Nat.pow 2 (itemCount p)) (successors p)
    (p.startRules.map fun rule => [⟨rule, 0⟩])).2
  have hstates : (ofProductions p).states = (found.keys.zip found.rows).map
    fun (kernel, gotos) => ({ kernel, items := closure p kernel, gotos } : ItemState) := rfl
  have hstarts : (ofProductions p).starts = numbers := rfl
  have hstate : ∀ {s : Nat} {st : ItemState}, (ofProductions p).states[s]? = some st ↔
      found.keys[s]? = some st.kernel ∧ found.rows[s]? = some st.gotos ∧
        st.items = closure p st.kernel := by
    intro s st
    rw [hstates]
    exact getElem?_states
  have hexists : ∀ {s : Nat} {kernel : List Item}, found.keys[s]? = some kernel →
      ∃ st, (ofProductions p).states[s]? = some st ∧ st.kernel = kernel := by
    intro s kernel hk
    obtain ⟨row, hrow, -⟩ := h.exists_row hk
    exact ⟨⟨kernel, closure p kernel, row⟩, hstate.mpr ⟨hk, hrow, rfl⟩, rfl⟩
  have hrowOf : ∀ {s : Nat} {st : ItemState}, (ofProductions p).states[s]? = some st →
      Graph.RowOf (successors p) found.keys st.kernel st.gotos := by
    intro s st hst
    obtain ⟨hk, hr, -⟩ := hstate.mp hst
    exact h.row hk hr
  refine
    { kernel := ?_, items := fun hst => (hstate.mp hst).2.2, goto := ?_, exists_goto := ?_,
      goto_next := ?_, starts := ?_, length_starts := ?_ }
  · intro s st hst
    exact h.found (fun k hk => kernelValid_start hk)
      (fun k hk e he => kernelValid_successor hp hk he) _
      (Array.mem_of_getElem? (hstate.mp hst).1)
  · intro s t x st hst hgoto
    obtain ⟨kernel, hmem, hkey⟩ := goto_of_row (hrowOf hst) hgoto
    obtain ⟨st', hst', rfl⟩ := hexists hkey
    refine ⟨st', hst', fun j => ?_⟩
    rw [(mem_successors.mp hmem).2, mem_sorted_advance, (hstate.mp hst).2.2]
  · intro s x st i hst hi hnext
    rw [(hstate.mp hst).2.2] at hi
    exact exists_goto_of_row (hrowOf hst) (mem_successors.mpr ⟨⟨i, hi, hnext⟩, rfl⟩)
  · intro s t x st hst hgoto
    obtain ⟨kernel, hmem, -⟩ := goto_of_row (hrowOf hst) hgoto
    rw [(hstate.mp hst).2.2]
    exact (mem_successors.mp hmem).1
  · intro i s hs
    rw [hstarts] at hs
    have hkey := congrArg (fun l => l[i]?) h.starts_eq
    simp only [List.getElem?_map, hs, Option.map_some] at hkey
    obtain ⟨kernel, hkernel, hk⟩ := Option.map_eq_some_iff.mp hkey.symm
    obtain ⟨rule, hrule, rfl⟩ := Option.map_eq_some_iff.mp hkernel
    obtain ⟨st, hst, heq⟩ := hexists hk.symm
    refine ⟨st, hst, heq.trans ?_⟩
    rw [Productions.startRules, List.getElem?_map, Option.map_eq_some_iff] at hrule
    obtain ⟨j, hj, rfl⟩ := hrule
    obtain ⟨hlt, hij⟩ := List.getElem?_eq_some_iff.mp hj
    rw [List.getElem_range] at hij
    rw [hij]
  · rw [hstarts]
    have hlength := congrArg List.length h.starts_eq
    simpa [Productions.startRules] using hlength

end Automaton

end GrammarTables.Lr
