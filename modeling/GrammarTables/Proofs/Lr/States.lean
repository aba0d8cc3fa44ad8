import GrammarTables.Proofs.Lr.Conflicts
import GrammarTables.Proofs.Lr.Viable
/-
# The states of the automaton

The automaton of items is canonical (`Automaton.Exact`).  Its construction comes to an end; its
states have different kernels and are reached from the starts; a state has the items that its kernel
calls for, each once, and a transition for each symbol after a dot, to the state of the items that
move on.  A start has the item of its input, and no transition leads back to it; the state in which
an input is complete is reached by the target of the input from its start, and in no other way.

The items of inputs tell how far a state is from a start (`Path.of_item`), so nothing has to be
known about transitions into starts and final states but that every state is on a path.
-/

namespace GrammarTables.Lr

variable {p : Productions}

/-! ## 1. The items that a kernel calls for -/

/-- **The items that a kernel calls for**: the kernel, and the rules of every nonterminal after a
dot, with the dot in front. -/
inductive Calls (p : Productions) (kernel : List Item) : Item → Prop
  | kernel {i : Item} : i ∈ kernel → Calls p kernel i
  | rule {i : Item} {x rule : Nat} : Calls p kernel i → i.next? p = some x → p.terminals ≤ x →
      rule < p.size → p.leftOf rule = x → Calls p kernel ⟨rule, 0⟩

/-- **The closure of a kernel is what the kernel calls for.** -/
theorem mem_closure_iff_calls (hp : p.Proper) {kernel : List Item} {i : Item} :
    i ∈ closure p kernel ↔ Calls p kernel i := by
  constructor
  · intro hi
    -- every nonterminal that is expanded stands after the dot of an item that is called for
    have hexpanded : ∀ x ∈ expansions p kernel,
        p.terminals ≤ x ∧ ∃ j, Calls p kernel j ∧ j.next? p = some x := by
      intro x hx
      refine (explores_expansions hp kernel).found
        (P := fun y => p.terminals ≤ y ∧ ∃ j, Calls p kernel j ∧ j.next? p = some y)
        (fun y hy => ?_) ?_ x (Array.mem_toList_iff.mp hx)
      · obtain ⟨j, hj, hnext, hle⟩ := mem_expected.mp hy
        exact ⟨hle, j, .kernel hj, hnext⟩
      · rintro y ⟨hle, j, hj, hnext⟩ e he
        obtain ⟨z, hz, rfl⟩ := List.mem_map.mp he
        obtain ⟨⟨rule, dot⟩, hk, hnext', hle'⟩ := mem_expected.mp hz
        obtain ⟨hrule, rfl⟩ := mem_initialItems.mp hk
        obtain ⟨hlt, hleft⟩ := hp.mem_rulesOf.mp hrule
        exact ⟨hle', _, .rule hj hnext hle hlt hleft, hnext'⟩
    obtain ⟨rule, dot⟩ := i
    rcases mem_closure.mp hi with hi | ⟨x, hx, hrule, rfl⟩
    · exact .kernel hi
    · obtain ⟨hle, j, hj, hnext⟩ := hexpanded x hx
      obtain ⟨hlt, hleft⟩ := hp.mem_rulesOf.mp hrule
      exact .rule hj hnext hle hlt hleft
  · intro hi
    induction hi with
    | kernel hi => exact mem_closure.mpr (.inl hi)
    | rule _ hnext hle hlt hleft ih =>
      have hx := mem_expansions_of_next hp ih hnext hle
      exact mem_closure.mpr (.inr ⟨_, hx, hp.mem_rulesOf.mpr ⟨hlt, hleft⟩, rfl⟩)

/-- No item of a closure comes twice if the items of the kernel with the dot in front belong to
inputs. -/
theorem nodup_closure (hp : p.Proper) (hrules : ∀ x, (p.rulesOf x).Nodup) {kernel : List Item}
    (hkernel : kernel.Nodup) (hinputs : ∀ i ∈ kernel, i.dot = 0 → p.rules ≤ i.rule) :
    (closure p kernel).Nodup := by
  have hexpansions : (expansions p kernel).Nodup := (explores_expansions hp kernel).nodup
  refine hkernel.append (List.nodup_flatMap.mpr ⟨fun x _ => ?_, ?_⟩) fun i hi hi' => ?_
  · exact (hrules x).map fun r r' h => (Item.mk.inj h).1
  · -- a rule has one left side
    refine hexpansions.imp fun {x y} hne i hi hi' => hne ?_
    have hx := (hp.mem_rulesOf.mp (mem_initialItems.mp hi).1).2
    exact hx.symm.trans (hp.mem_rulesOf.mp (mem_initialItems.mp hi').1).2
  · obtain ⟨x, hx, hi'⟩ := List.mem_flatMap.mp hi'
    obtain ⟨hrule, hdot⟩ := mem_initialItems.mp hi'
    have hlt := hp.lt_rules (exists_next_of_mem_expansions hp hx).1 hrule
    exact absurd hlt (Nat.not_lt.mpr (hinputs i hi hdot))

theorem nodup_rulesOf (g : Grammar) (x : Nat) : ((Productions.ofGrammar g).rulesOf x).Nodup := by
  have hfilter : ∀ ls : List Nat, (ls.zipIdx.filterMap
      fun e => if e.1 = x then some e.2 else none).Nodup := by
    intro ls
    have hnodup : (ls.zipIdx.map Prod.snd).Nodup := by
      rw [List.zipIdx_map_snd]
      exact List.nodup_range'
    refine List.pairwise_filterMap.mpr ((List.pairwise_map.mp hnodup).imp ?_)
    intro e e' hne r hr r' hr'
    simp only [Option.ite_none_right_eq_some, Option.some.injEq] at hr hr'
    rw [← hr.2, ← hr'.2]
    exact hne
  simp only [Productions.rulesOf, Productions.ofGrammar, Array.getD_eq_getD_getElem?,
    List.getElem?_toArray, List.getElem?_map]
  by_cases hx : x < g.grammarSymbols + g.inputList.length
  · rw [List.getElem?_range hx]
    exact hfilter _
  · rw [List.getElem?_eq_none (by simpa using hx)]
    exact List.nodup_nil

namespace Automaton

/-! ## 2. Every state is on a path -/

theorem exists_path (hp : p.Proper) {s : Nat} {st : ItemState}
    (hs : (ofProductions p).states[s]? = some st) :
    ∃ (i start : Nat) (σ : List Nat), (ofProductions p).starts[i]? = some start ∧
      Path (ofProductions p) start σ s := by
  have ha := proper_ofProductions hp
  have hfound := kernel_induction (P := fun kernel => ∃ (t : Nat) (st' : ItemState),
    (ofProductions p).states[t]? = some st' ∧ st'.kernel = kernel ∧
      ∃ (i start : Nat) (σ : List Nat), (ofProductions p).starts[i]? = some start ∧
        Path (ofProductions p) start σ t) hp ?_ ?_ hs
  · obtain ⟨t, st', ht, hkernel, hpath⟩ := hfound
    obtain rfl := kernel_inj hp hs ht hkernel.symm
    exact hpath
  · intro rule hrule
    obtain ⟨i, hi, rfl⟩ := List.mem_map.mp hrule
    rw [List.mem_range, ← ha.length_starts] at hi
    have hstart := List.getElem?_eq_getElem hi
    obtain ⟨st', ht, hkernel⟩ := ha.starts hstart
    exact ⟨_, st', ht, hkernel, i, _, [], hstart, .nil⟩
  · rintro kernel ⟨t, st', ht, rfl, i, start, σ, hstart, hpath⟩ ⟨x, kernel'⟩ he
    obtain ⟨⟨j, hj, hnext⟩, rfl⟩ := mem_successors.mp he
    rw [← ha.items ht] at hj
    obtain ⟨u, hgoto⟩ := ha.exists_goto ht hj hnext
    obtain ⟨st'', hu, hmem⟩ := ha.goto ht hgoto
    refine ⟨u, st'', hu, ?_, i, start, x :: σ, hstart, hpath.cons ht hgoto⟩
    -- both kernels are ordered and have the same items
    refine Item.ranks_before.ext (ha.kernel hu).1 (Item.ranks_before.pairwise_sortBy _) fun k => ?_
    rw [hmem, ha.items ht, mem_sorted_advance]

/-- The kernel of a state is that of a start, or all its dots have moved. -/
theorem kernel_cases (hp : p.Proper) {s : Nat} {st : ItemState}
    (hs : (ofProductions p).states[s]? = some st) :
    (∃ i, st.kernel = [⟨p.rules + i, 0⟩]) ∨ ∀ i ∈ st.kernel, i.dot ≠ 0 := by
  have ha := proper_ofProductions hp
  obtain ⟨i, start, σ, hstart, hpath⟩ := exists_path hp hs
  cases hpath with
  | nil =>
    obtain ⟨st', hs', hkernel⟩ := ha.starts hstart
    obtain rfl := Option.some.inj (hs.symm.trans hs')
    exact .inl ⟨i, hkernel⟩
  | cons _ ht hgoto =>
    obtain ⟨st', hs', hmem⟩ := ha.goto ht hgoto
    obtain rfl := Option.some.inj (hs.symm.trans hs')
    refine .inr fun j hj => ?_
    obtain ⟨k, -, -, rfl⟩ := (hmem j).mp hj
    exact Nat.succ_ne_zero _

theorem nodup_items (hp : p.Proper) (hrules : ∀ x, (p.rulesOf x).Nodup) {s : Nat} {st : ItemState}
    (hs : (ofProductions p).states[s]? = some st) : st.items.Nodup := by
  have ha := proper_ofProductions hp
  have hkernel : st.kernel.Nodup := (ha.kernel hs).1.imp fun hbefore heq => by
    rw [heq, Item.ranks_before.irrefl] at hbefore
    cases hbefore
  rw [ha.items hs]
  refine nodup_closure hp hrules hkernel fun i hi hdot => ?_
  rcases kernel_cases hp hs with ⟨n, heq⟩ | hdots
  · rw [heq] at hi
    rw [List.mem_singleton.mp hi]
    exact Nat.le_add_right _ _
  · exact absurd hdot (hdots i hi)

/-! ## 3. Starts and final states -/

theorem not_goto_start (hp : p.Proper) {i s t x : Nat} {st : ItemState}
    (hstart : (ofProductions p).starts[i]? = some s) (ht : (ofProductions p).states[t]? = some st) :
    st.goto? x ≠ some s := by
  intro hgoto
  have ha := proper_ofProductions hp
  obtain ⟨st', hs, hkernel⟩ := ha.starts hstart
  obtain ⟨st'', hs', hmem⟩ := ha.goto ht hgoto
  obtain rfl := Option.some.inj (hs.symm.trans hs')
  have hitem : ⟨p.rules + i, 0⟩ ∈ st'.kernel := by
    rw [hkernel]
    exact List.mem_singleton_self _
  obtain ⟨k, -, -, hk⟩ := (hmem _).mp hitem
  cases (Item.mk.inj hk).2

theorem nodup_starts (hp : p.Proper) : (ofProductions p).starts.Nodup := by
  have ha := proper_ofProductions hp
  refine List.nodup_iff_getElem?_ne_getElem?.mpr fun i j hij hj heq => ?_
  obtain ⟨st, hs, hkernel⟩ := ha.starts (List.getElem?_eq_getElem hj)
  obtain ⟨st', hs', hkernel'⟩ := ha.starts (heq.trans (List.getElem?_eq_getElem hj))
  obtain rfl := Option.some.inj (hs.symm.trans hs')
  have hrule := (Item.mk.inj (List.singleton_inj.mp (hkernel.symm.trans hkernel'))).1
  omega

/-- The item of an input that is complete has been reached from the start by the target. -/
theorem complete_path (hp : p.Proper) {i target s : Nat} {st : ItemState}
    (htarget : p.rightOf (p.rules + i) = [target])
    (hs : (ofProductions p).states[s]? = some st) (hitem : ⟨p.rules + i, 1⟩ ∈ st.items)
    {j start : Nat} {σ : List Nat} (hstart : (ofProductions p).starts[j]? = some start)
    (hpath : Path (ofProductions p) start σ s) : j = i ∧ σ = [target] := by
  obtain ⟨-, htake, hinput⟩ :=
    hpath.of_item hp (proper_ofProductions hp) hstart hs hitem
  obtain ⟨hrule, hlength⟩ := hinput (Nat.le_add_right _ _)
  obtain ⟨x, rfl⟩ := List.length_eq_one_iff.mp hlength
  rw [htarget] at htake
  refine ⟨(Nat.add_left_cancel hrule).symm, ?_⟩
  simpa using htake

/-- From its start an input is complete after its target. -/
theorem exists_goto_target (hp : p.Proper) {i target start : Nat}
    (htarget : p.rightOf (p.rules + i) = [target])
    (hstart : (ofProductions p).starts[i]? = some start) : ∃ st f stf,
      (ofProductions p).states[start]? = some st ∧ st.goto? target = some f ∧
      (ofProductions p).states[f]? = some stf ∧ ⟨p.rules + i, 1⟩ ∈ stf.kernel := by
  have ha := proper_ofProductions hp
  obtain ⟨st, hs, hkernel⟩ := ha.starts hstart
  have hitem : ⟨p.rules + i, 0⟩ ∈ st.items := by
    rw [ha.items hs, mem_closure, hkernel]
    exact .inl (List.mem_singleton_self _)
  have hnext : (⟨p.rules + i, 0⟩ : Item).next? p = some target := by
    rw [Item.next?, htarget]
    rfl
  obtain ⟨f, hgoto⟩ := ha.exists_goto hs hitem hnext
  obtain ⟨stf, hf, hmem⟩ := ha.goto hs hgoto
  exact ⟨st, f, stf, hs, hgoto, hf, (hmem _).mpr ⟨_, hitem, hnext, rfl⟩⟩

/-- **An input is complete in its final state only**, and nothing leads there but its target from
its start. -/
theorem final_iff (hp : p.Proper) {i target : Nat} (hi : i < p.size - p.rules)
    (htarget : p.rightOf (p.rules + i) = [target]) : ∃ start f,
      (ofProductions p).starts[i]? = some start ∧ (ofProductions p).finals[i]? = some f ∧
      f < (ofProductions p).size ∧
      ∀ {s : Nat} {st : ItemState}, (ofProductions p).states[s]? = some st →
        (⟨p.rules + i, 1⟩ ∈ st.items ↔ s = f) ∧
        ∀ x, st.goto? x = some f ↔ s = start ∧ x = target := by
  have ha := proper_ofProductions hp
  have hstart := List.getElem?_eq_getElem (ha.length_starts.symm ▸ hi)
  obtain ⟨st₀, f, stf, hs₀, hgoto, hf, hkernel⟩ := exists_goto_target hp htarget hstart
  have hitem : ⟨p.rules + i, 1⟩ ∈ stf.items := by
    rw [ha.items hf]
    exact mem_closure.mpr (.inl hkernel)
  refine ⟨_, f, hstart, finals_of_mem hp hi hf hkernel, (Array.getElem?_eq_some_iff.mp hf).1, ?_⟩
  intro s st hs
  obtain ⟨j, start', σ, hstart', hpath⟩ := exists_path hp hs
  refine ⟨⟨fun hcomplete => ?_, ?_⟩, fun x => ⟨fun hx => ?_, ?_⟩⟩
  · -- the only path to such a state is the target
    obtain ⟨rfl, rfl⟩ := complete_path hp htarget hs hcomplete hstart' hpath
    obtain rfl := Option.some.inj (hstart.symm.trans hstart')
    cases hpath with
    | cons hpath ht hgoto' =>
      cases hpath
      obtain rfl := Option.some.inj (hs₀.symm.trans ht)
      exact Option.some.inj (hgoto'.symm.trans hgoto)
  · rintro rfl
    obtain rfl := Option.some.inj (hf.symm.trans hs)
    exact hitem
  · obtain ⟨rfl, hσ⟩ := complete_path hp htarget hf hitem hstart' (hpath.cons hs hx)
    obtain ⟨rfl, rfl⟩ := List.cons.inj hσ
    cases hpath
    exact ⟨Option.some.inj (hstart'.symm.trans hstart), rfl⟩
  · rintro ⟨rfl, rfl⟩
    obtain rfl := Option.some.inj (hs₀.symm.trans hs)
    exact hgoto

/-! ## 4. The canonical automaton -/

/-- **The canonical automaton of the items of a grammar**: its states, their items, the transitions,
the starts and the final states. -/
structure Exact (g : Grammar) (a : Automaton) : Prop where
  distinct : ∀ {s t : Nat} {st st' : ItemState}, a.states[s]? = some st →
    a.states[t]? = some st' → st.kernel = st'.kernel → s = t
  sorted : ∀ {s : Nat} {st : ItemState}, a.states[s]? = some st →
    st.kernel.Pairwise (Item.before · · = true)
  reachable : ∀ {s : Nat}, s < a.size → ∃ start ∈ a.starts, ∃ σ, Path a start σ s
  nodup_items : ∀ {s : Nat} {st : ItemState}, a.states[s]? = some st → st.items.Nodup
  items : ∀ {s : Nat} {st : ItemState}, a.states[s]? = some st →
    ∀ i, i ∈ st.items ↔ Calls (.ofGrammar g) st.kernel i
  goto : ∀ {s : Nat} {st : ItemState}, a.states[s]? = some st →
    ∀ x, (∃ t, st.goto? x = some t) ↔ ∃ i ∈ st.items, i.next? (.ofGrammar g) = some x
  target : ∀ {s x t : Nat} {st : ItemState}, a.states[s]? = some st → st.goto? x = some t →
    ∃ st', a.states[t]? = some st' ∧
      ∀ j, j ∈ st'.kernel ↔ ∃ i ∈ st.items, i.next? (.ofGrammar g) = some x ∧ j = i.advance
  length_starts : a.starts.length = g.inputList.length
  nodup_starts : a.starts.Nodup
  start : ∀ {i s : Nat}, a.starts[i]? = some s →
    ∃ st, a.states[s]? = some st ∧ st.kernel = [⟨g.ruleList.length + i, 0⟩]
  not_goto_start : ∀ {i s t x : Nat} {st : ItemState}, a.starts[i]? = some s →
    a.states[t]? = some st → st.goto? x ≠ some s
  length_finals : a.finals.length = g.inputList.length
  /-- An input is complete in one state only, and its target leads there from its start only. -/
  final : ∀ {i : Nat} {input : Input}, g.inputList[i]? = some input → ∃ start f,
    a.starts[i]? = some start ∧ a.finals[i]? = some f ∧ f < a.size ∧
    ∀ {s : Nat} {st : ItemState}, a.states[s]? = some st →
      (⟨g.ruleList.length + i, 1⟩ ∈ st.items ↔ s = f) ∧
      ∀ x, st.goto? x = some f ↔ s = start ∧ x = input.target

theorem exact_automatonOf {g : Grammar} (hg : g.WellFormed) : (automatonOf g).Exact g := by
  have hp := Productions.proper_ofGrammar hg
  have ha : (automatonOf g).Proper (.ofGrammar g) := proper_ofProductions hp
  have hinputs : (Productions.ofGrammar g).size - (Productions.ofGrammar g).rules =
      g.inputList.length := by
    rw [Productions.size_ofGrammar]
    exact Nat.add_sub_cancel_left ..
  exact
    { distinct := kernel_inj hp
      sorted := fun hs => (ha.kernel hs).1
      reachable := fun hs => by
        obtain ⟨i, start, σ, hstart, hpath⟩ := exists_path hp (Array.getElem?_eq_getElem hs)
        exact ⟨start, List.mem_of_getElem? hstart, σ, hpath⟩
      nodup_items := nodup_items hp (nodup_rulesOf g)
      items := fun hs i => by rw [ha.items hs, mem_closure_iff_calls hp]
      goto := fun hs x =>
        ⟨fun ⟨_, ht⟩ => ha.goto_next hs ht, fun ⟨_, hi, hnext⟩ => ha.exists_goto hs hi hnext⟩
      target := ha.goto
      length_starts := ha.length_starts.trans hinputs
      nodup_starts := nodup_starts hp
      start := ha.starts
      not_goto_start := not_goto_start hp
      length_finals := by
        rw [← hinputs]
        simp [automatonOf, ofProductions, Productions.startRules]
      final := fun hinput => by
        have hi := (List.getElem?_eq_some_iff.mp hinput).1
        exact final_iff hp (hinputs.symm ▸ hi) (Productions.rightOf_input g hinput) }

end Automaton

/-- **The construction of the automaton ends, and what it leads to is canonical.**  The nonterminals
that a kernel calls for are found by a search that ends, and so are the states; the automaton is
read off what the search for states has found. -/
theorem automaton_exact {g : Grammar} (hg : g.Frozen) :
    (∀ kernel, ∃ d, Graph.RunsTo
      (fun x => (expected (.ofGrammar g) (initialItems (.ofGrammar g) x)).map (0, ·))
      (expected (.ofGrammar g) kernel) d ∧
      closure (.ofGrammar g) kernel =
        kernel ++ d.keys.toList.flatMap (initialItems (.ofGrammar g))) ∧
    (∃ d, Graph.RunsTo (successors (.ofGrammar g))
      ((Productions.ofGrammar g).startRules.map fun rule => [⟨rule, 0⟩]) d ∧
      (automatonOf g).states = (d.keys.zip d.rows).map fun (kernel, gotos) =>
        { kernel, items := closure (.ofGrammar g) kernel, gotos }) ∧
    (automatonOf g).Exact g := by
  have hp := Productions.proper_ofGrammar hg.wellFormed
  exact ⟨fun kernel => ⟨_, (explores_expansions hp kernel).runsTo, rfl⟩,
    ⟨_, (explores_kernels hp).runsTo, rfl⟩, Automaton.exact_automatonOf hg.wellFormed⟩

/-- Sums are complete in the state after a sum, and nothing leads to their start. -/
theorem automaton_exact_sum : ∃ start f st, (automatonOf sumDraft.freeze).starts[0]? = some start ∧
    (automatonOf sumDraft.freeze).finals[0]? = some f ∧
    (automatonOf sumDraft.freeze).states[start]? = some st ∧ st.goto? 3 = some f ∧
    st.goto? 3 ≠ some start := by
  have hinput : sumDraft.freeze.inputList[0]? = some { target := 3, hasEoi := true } := by
    decide +kernel
  obtain ⟨-, -, h⟩ := automaton_exact ⟨sumDraft, sumDraft_reached, rfl⟩
  obtain ⟨start, f, hstart, hfinal, -, honly⟩ := h.final hinput
  obtain ⟨st, hs, -⟩ := h.start hstart
  exact ⟨start, f, st, hstart, hfinal, hs, ((honly hs).2 3).mpr ⟨rfl, rfl⟩,
    h.not_goto_start hstart hs⟩

end GrammarTables.Lr
