import GrammarTables.Lr.Entries
import GrammarTables.Proofs.Lr.Flow
/-
# Lookaheads of items

What may follow an item of a state is closed under everything that a parse can do
(`Ahead.start`, `Ahead.goto`, `Ahead.close`), and a production is reduced before exactly what may
follow a complete item of it (`mem_candidates_iff`).  The production of an input is complete only
before what may follow the input (`Ahead.mayFollow`).
-/

namespace GrammarTables.Lr

open GrammarTables.Graph (Leads)

variable {p : Productions}

/-! ## 1. Reductions -/

theorem mem_candidates {rs : Reductions} {rule la : Nat} :
    rule ∈ candidates rs la ↔ ∃ las, (rule, las) ∈ rs ∧ la ∈ las := by
  rw [candidates, List.mem_filterMap]
  constructor
  · rintro ⟨⟨r, las⟩, hmem, h⟩
    simp only [List.contains_iff_mem, Option.ite_none_right_eq_some, Option.some.injEq] at h
    exact ⟨las, h.2 ▸ hmem, h.1⟩
  · rintro ⟨las, hmem, hla⟩
    exact ⟨(rule, las), hmem, by simp [hla]⟩

/-- A production is reduced before what a complete item of it is followed by. -/
theorem mem_candidates_reductionsOf {flows : List (List (Flow × Nat))} {follows rule la : Nat}
    {kernelLas : List (List Nat)} :
    rule ∈ candidates (reductionsOf flows follows kernelLas) la ↔
      ∃ e ∈ flows.zip kernelLas, ∃ m, (.complete rule, m) ∈ e.1 ∧
        la ∈ if m = follows then e.2 else [m] := by
  simp only [mem_candidates, reductionsOf, List.mem_map, List.mem_flatMap, List.mem_filterMap,
    mem_ascending]
  constructor
  · rintro ⟨las, ⟨r, -, heq⟩, hla⟩
    obtain ⟨rfl, rfl⟩ := Prod.mk.inj heq
    obtain ⟨⟨r', las'⟩, hin, hla'⟩ := List.mem_flatMap.mp (mem_ascending.mp hla)
    obtain ⟨e, he, hin⟩ := List.mem_flatMap.mp hin
    obtain ⟨⟨f, m⟩, hf, hsome⟩ := List.mem_filterMap.mp hin
    cases f with
    | kernel id => cases hsome
    | complete r'' =>
      obtain ⟨rfl, rfl⟩ := Prod.mk.inj (Option.some.inj hsome)
      by_cases hr : r'' = r
      · subst hr
        simp only [if_true] at hla'
        exact ⟨e, he, m, hf, hla'⟩
      · simp [hr] at hla'
  · rintro ⟨e, he, m, hm, hla⟩
    refine ⟨_, ⟨rule, ⟨_, ⟨e, he, (.complete rule, m), hm, rfl⟩, rfl⟩, rfl⟩, ?_⟩
    rw [mem_ascending, List.mem_flatMap]
    refine ⟨(rule, if m = follows then e.2 else [m]), ?_, by simpa using hla⟩
    exact List.mem_flatMap.mpr ⟨e, he, List.mem_filterMap.mpr ⟨_, hm, rfl⟩⟩

/-- Each production is reduced once, in their order. -/
theorem pairwise_reductionsOf (flows : List (List (Flow × Nat))) (follows : Nat)
    (kernelLas : List (List Nat)) :
    (reductionsOf flows follows kernelLas).Pairwise fun e f => e.1 < f.1 := by
  rw [reductionsOf, List.pairwise_map]
  exact pairwise_ascending _

theorem pairwise_candidates {rs : Reductions} (h : rs.Pairwise fun e f => e.1 < f.1) (la : Nat) :
    (candidates rs la).Pairwise (· < ·) := by
  refine h.filterMap _ fun e f hlt rule hrule rule' hrule' => ?_
  simp only [Option.ite_none_right_eq_some, Option.some.injEq] at hrule hrule'
  rwa [← hrule.2, ← hrule'.2]

section Reductions

variable {a : Automaton} {inputs : List Input}

/-- The reductions of a state. -/
theorem getD_reductions {s : Nat} {st : ItemState} (hs : a.states[s]? = some st) :
    (reductions (Context.ofProductions p) a inputs).getD s [] =
      reductionsOf (st.kernel.map (flowsAt p a st)) p.terminals
        ((List.range st.kernel.length).map fun j =>
          lookaheadsOf p a inputs (kernelNumber a s j)) := by
  have heq : reductions (Context.ofProductions p) a inputs =
      ((a.states.map (stateFlows (Context.ofProductions p) a (kernelOffsets a))).zip
        (kernelOffsets a)).map fun e => reductionsOf e.1 p.terminals
          ((List.range e.1.length).map fun k => lookaheadsOf p a inputs (e.2 + k)) := rfl
  obtain ⟨hlt, -⟩ := Array.getElem?_eq_some_iff.mp hs
  have hoffset : (kernelOffsets a)[s]? = some ((kernelOffsets a).getD s 0) := by
    simp [kernelOffsets_eq, Array.getD_eq_getD_getElem?, hlt]
  have hflows : (a.states.map (stateFlows (Context.ofProductions p) a (kernelOffsets a)))[s]? =
      some (st.kernel.map (flowsAt p a st)) := by
    rw [Array.getElem?_map, hs, Option.map_some, stateFlows_eq]
  have hzip : ((a.states.map (stateFlows (Context.ofProductions p) a (kernelOffsets a))).zip
      (kernelOffsets a))[s]? = some (st.kernel.map (flowsAt p a st), (kernelOffsets a).getD s 0) :=
    Array.getElem?_zip_eq_some.mpr ⟨hflows, hoffset⟩
  rw [heq, Array.getD_eq_getD_getElem?, Array.getElem?_map, hzip]
  simp only [Option.map_some, Option.getD_some, List.length_map]
  rfl

end Reductions

/-! ## 2. What may follow the items of a state -/

section Ahead

variable (p : Productions) (a : Automaton) (inputs : List Input)

/-- A terminal may follow an item of a state: the closure of a kernel item has it, or has the mark
and the terminal may follow the kernel item. -/
def Ahead (s : Nat) (i : Item) (la : Nat) : Prop :=
  ∃ (st : ItemState) (j : Nat) (k : Item) (m : Nat), a.states[s]? = some st ∧
    st.kernel[j]? = some k ∧ (i, m) ∈ (Context.ofProductions p).closeItem k ∧
    (m = p.terminals ∧ la ∈ lookaheadsOf p a inputs (kernelNumber a s j) ∨
      m < p.terminals ∧ la = m)

variable {p a inputs}

/-- **A production is reduced before what may follow a complete item of it.** -/
theorem mem_candidates_iff {s la rule : Nat} {st : ItemState} (hs : a.states[s]? = some st) :
    rule ∈ candidates ((reductions (Context.ofProductions p) a inputs).getD s []) la ↔
      ∃ i : Item, Ahead p a inputs s i la ∧ i.next? p = none ∧ i.rule = rule := by
  rw [getD_reductions hs, mem_candidates_reductionsOf]
  constructor
  · rintro ⟨⟨flow, las⟩, he, m, hm, hla⟩
    obtain ⟨j, hj⟩ := List.mem_iff_getElem?.mp he
    obtain ⟨hflow, hlas⟩ := List.getElem?_zip_eq_some.mp hj
    rw [List.getElem?_map, Option.map_eq_some_iff] at hflow
    obtain ⟨k, hk, rfl⟩ := hflow
    rw [List.getElem?_map, List.getElem?_range (List.getElem?_eq_some_iff.mp hk).1] at hlas
    obtain rfl := Option.some.inj hlas
    obtain ⟨i, hi, hf⟩ := mem_flowsAt.mp hm
    obtain ⟨hnext, hrule⟩ := flowOf?_eq_complete.mp hf
    refine ⟨i, ⟨st, j, k, m, hs, hk, hi, ?_⟩, hnext, hrule⟩
    by_cases hfollows : m = p.terminals
    · rw [if_pos hfollows] at hla
      exact Or.inl ⟨hfollows, hla⟩
    · rw [if_neg hfollows] at hla
      have hle := Context.lookahead_le hi
      exact Or.inr ⟨by omega, List.mem_singleton.mp hla⟩
  · rintro ⟨i, ⟨st', j, k, m, hs', hk, hi, hla⟩, hnext, hrule⟩
    obtain rfl := Option.some.inj (hs.symm.trans hs')
    have hm : (.complete rule, m) ∈ flowsAt p a st k :=
      mem_flowsAt.mpr ⟨i, hi, flowOf?_eq_complete.mpr ⟨hnext, hrule⟩⟩
    refine ⟨(flowsAt p a st k, lookaheadsOf p a inputs (kernelNumber a s j)),
      List.mem_iff_getElem?.mpr ⟨j, List.getElem?_zip_eq_some.mpr ⟨?_, ?_⟩⟩, m, hm, ?_⟩
    · rw [List.getElem?_map, hk, Option.map_some]
    · rw [List.getElem?_map, List.getElem?_range (List.getElem?_eq_some_iff.mp hk).1]
      rfl
    · rcases hla with ⟨hm, hla⟩ | ⟨hm, rfl⟩
      · rwa [if_pos hm]
      · rw [if_neg (Nat.ne_of_lt hm)]
        exact List.mem_singleton.mpr rfl

/-- What may follow is followed by in an item of the state. -/
theorem Ahead.mem_items (hp : p.Proper) (ha : a.Proper p) {s la : Nat} {i : Item}
    (h : Ahead p a inputs s i la) {st : ItemState} (hs : a.states[s]? = some st) :
    i ∈ st.items := by
  obtain ⟨st', j, k, m, hs', hk, hi, -⟩ := h
  obtain rfl := Option.some.inj (hs.symm.trans hs')
  rw [ha.items hs]
  have hmem := List.mem_of_getElem? hk
  by_cases hself : i = k ∧ m = p.terminals
  · exact mem_closure.mpr (Or.inl (hself.1 ▸ hmem))
  · exact (Context.of_mem_closeItem hp hi hself).2.2 _ hmem

theorem Ahead.exists_state {s la : Nat} {i : Item} (h : Ahead p a inputs s i la) :
    ∃ st, a.states[s]? = some st := by
  obtain ⟨st, -, -, -, hs, -⟩ := h
  exact ⟨st, hs⟩

theorem Ahead.lt_terminals {s la : Nat} {i : Item} (h : Ahead p a inputs s i la) :
    la < p.terminals := by
  obtain ⟨st, j, k, m, -, -, -, ⟨-, hla⟩ | ⟨hm, rfl⟩⟩ := h
  · exact lt_of_mem_lookaheadsOf hla
  · exact hm

/-- What may follow a kernel item follows it as an item. -/
theorem ahead_of_lookahead {s j la : Nat} {st : ItemState} {k : Item} (hs : a.states[s]? = some st)
    (hk : st.kernel[j]? = some k) (hla : la ∈ lookaheadsOf p a inputs (kernelNumber a s j)) :
    Ahead p a inputs s k la :=
  ⟨st, j, k, p.terminals, hs, hk, Context.mem_closeItem.mpr (Or.inl ⟨rfl, rfl⟩),
    Or.inl ⟨rfl, hla⟩⟩

theorem lookaheadsOf_of_generated {la id : Nat} (h : id ∈ generatedFor p a inputs la)
    (hlt : id < kernelCount a) : la ∈ lookaheadsOf p a inputs id :=
  mem_lookaheadsOf.mpr ⟨id, h, hlt, .refl⟩

theorem lookaheadsOf_of_link {la id id' : Nat} (h : la ∈ lookaheadsOf p a inputs id)
    (hlink : id' ∈ linksAt p a id) (hlt : id' < kernelCount a) :
    la ∈ lookaheadsOf p a inputs id' := by
  obtain ⟨v, hv, hvlt, hleads⟩ := mem_lookaheadsOf.mp h
  exact mem_lookaheadsOf.mpr ⟨v, hv, hvlt, hleads.tail ⟨hlink, hlt⟩⟩

theorem mem_startNumbers {i s : Nat} {las : List Nat} (hs : a.starts[i]? = some s)
    (hlas : (inputLookaheads p inputs)[i]? = some las) :
    (kernelNumber a s 0, las) ∈ startNumbers p a inputs := by
  refine List.mem_map.mpr ⟨(s, las), List.mem_iff_getElem?.mpr ⟨i, ?_⟩, rfl⟩
  exact List.getElem?_zip_eq_some.mpr ⟨hs, hlas⟩

/-- A terminal may follow an input. -/
def MayFollow (p : Productions) (inputs : List Input) (n la : Nat) : Prop :=
  la < p.terminals ∧ ∃ las, (inputLookaheads p inputs)[n]? = some las ∧ la ∈ las

/-- **The item of an input is followed by what may follow the input.** -/
theorem Ahead.start (ha : a.Proper p) {n s la : Nat} (hs : a.starts[n]? = some s)
    (h : MayFollow p inputs n la) : Ahead p a inputs s ⟨p.rules + n, 0⟩ la := by
  obtain ⟨hlt, las, hlas, hla⟩ := h
  obtain ⟨st, hst, hkernel⟩ := ha.starts hs
  have hk : st.kernel[0]? = some ⟨p.rules + n, 0⟩ := by rw [hkernel]; rfl
  refine ahead_of_lookahead hst hk (lookaheadsOf_of_generated ?_ (kernelNumber_lt hst hk))
  exact mem_generatedFor.mpr ⟨hlt, Or.inl ⟨_, mem_startNumbers hs hlas, hla, rfl⟩⟩

/-- **What may follow an item may follow it when the dot has moved.** -/
theorem Ahead.goto (hp : p.Proper) (ha : a.Proper p) {s t x la : Nat} {i : Item} {st : ItemState}
    (h : Ahead p a inputs s i la) (hnext : i.next? p = some x) (hs : a.states[s]? = some st)
    (hgoto : st.goto? x = some t) : Ahead p a inputs t i.advance la := by
  have hitem := h.mem_items hp ha hs
  obtain ⟨st', j, k, m, hs', hk, hi, hla⟩ := h
  obtain rfl := Option.some.inj (hs.symm.trans hs')
  obtain ⟨target, ht, hkernel⟩ := ha.goto hs hgoto
  obtain ⟨n, hn⟩ := exists_findIdx? ((hkernel i.advance).mpr ⟨i, hitem, hnext, rfl⟩)
  have hk' := findIdx?_kernel hn
  have hflow : (.kernel (kernelNumber a t n), m) ∈ flowsAt p a st k :=
    mem_flowsAt.mpr ⟨i, hi, flowOf?_eq_kernel.mpr ⟨x, t, target, n, hnext, hgoto, ht, hn, rfl⟩⟩
  refine ahead_of_lookahead ht hk' ?_
  rcases hla with ⟨rfl, hla⟩ | ⟨hm, rfl⟩
  · exact lookaheadsOf_of_link hla ((mem_linksAt hs hk).mpr hflow) (kernelNumber_lt ht hk')
  · refine lookaheadsOf_of_generated (mem_generatedFor.mpr ⟨hm, Or.inr ⟨_, ?_, hflow⟩⟩)
      (kernelNumber_lt ht hk')
    exact List.mem_of_getElem? (getElem?_allFlows hs hk)

/-- **The rules of an expected nonterminal are followed by what may follow it.** -/
theorem Ahead.close (hp : p.Proper) {s x la rule b : Nat} {i : Item}
    (h : Ahead p a inputs s i la) (hnext : i.next? p = some x) (hrule : rule ∈ p.rulesOf x)
    (hb : Context.Follow p (i.advance.rest p) la b) : Ahead p a inputs s ⟨rule, 0⟩ b := by
  obtain ⟨st, j, k, m, hs, hk, hi, hla⟩ := h
  rcases hb with hfirst | ⟨hnull, rfl⟩
  · have hi' := Context.initial_mem_closeItem hp hi hnext hrule (Or.inl hfirst)
    exact ⟨st, j, k, b, hs, hk, hi', Or.inr ⟨FirstSets.lt_terminals hfirst, rfl⟩⟩
  · have hi' := Context.initial_mem_closeItem hp hi hnext hrule (Or.inr ⟨hnull, rfl⟩)
    exact ⟨st, j, k, m, hs, hk, hi', hla⟩

/-! ## 3. What may follow an input -/

theorem exists_kernelNumber {id : Nat} (h : id < kernelCount a) :
    ∃ (s j : Nat) (st : ItemState) (k : Item), a.states[s]? = some st ∧ st.kernel[j]? = some k ∧
      id = kernelNumber a s j := by
  rw [kernelCount_eq] at h
  obtain ⟨s, j, st, hs, hj, rfl⟩ := exists_rowOffset _ h
  rw [Array.getElem?_toList] at hs
  exact ⟨s, j, st, st.kernel[j], hs, List.getElem?_eq_getElem hj, (kernelNumber_eq hs j).symm⟩

/-- A flow into a kernel item comes from the item before the dot was moved. -/
theorem of_mem_flowsAt {s j m : Nat} {st st' : ItemState} {k k' : Item}
    (hs : a.states[s]? = some st) (hk : st.kernel[j]? = some k)
    (h : (.kernel (kernelNumber a s j), m) ∈ flowsAt p a st' k') :
    ∃ i x, (i, m) ∈ (Context.ofProductions p).closeItem k' ∧ i.next? p = some x ∧
      st'.goto? x = some s ∧ k = i.advance := by
  obtain ⟨i, hi, hf⟩ := mem_flowsAt.mp h
  obtain ⟨x, t, target, n, hnext, hgoto, ht, hn, hid⟩ := flowOf?_eq_kernel.mp hf
  have hk' := findIdx?_kernel hn
  obtain ⟨rfl, rfl⟩ := kernelNumber_inj hs ht hk hk' hid
  obtain rfl := Option.some.inj (hs.symm.trans ht)
  exact ⟨i, x, hi, hnext, hgoto, Option.some.inj (hk.symm.trans hk')⟩

/-- A terminal follows the items of an input only if it may follow the input. -/
def KeepsInputs (p : Productions) (a : Automaton) (inputs : List Input) (la id : Nat) : Prop :=
  ∀ (s j n : Nat) (st : ItemState) (k : Item), a.states[s]? = some st → st.kernel[j]? = some k →
    id = kernelNumber a s j → k.rule = p.rules + n → MayFollow p inputs n la

theorem keepsInputs_of_generated (hp : p.Proper) (ha : a.Proper p) {la id : Nat}
    (h : id ∈ generatedFor p a inputs la) : KeepsInputs p a inputs la id := by
  intro s j n st k hs hk hid hrule
  obtain ⟨hlt, ⟨e, he, hla, rfl⟩ | ⟨flow, hflow, hmem⟩⟩ := mem_generatedFor.mp h
  · obtain ⟨⟨s', las⟩, hzip, rfl⟩ := List.mem_map.mp he
    obtain ⟨i, hi⟩ := List.mem_iff_getElem?.mp hzip
    obtain ⟨hs', hlas⟩ := List.getElem?_zip_eq_some.mp hi
    obtain ⟨st', hst', hkernel⟩ := ha.starts hs'
    have hk' : st'.kernel[0]? = some ⟨p.rules + i, 0⟩ := by rw [hkernel]; rfl
    obtain ⟨rfl, rfl⟩ := kernelNumber_inj hs hst' hk hk' hid.symm
    obtain rfl := Option.some.inj (hs.symm.trans hst')
    obtain rfl := Option.some.inj (hk.symm.trans hk')
    obtain rfl : i = n := by simpa using hrule
    exact ⟨hlt, las, hlas, hla⟩
  · obtain ⟨s', st', k', -, -, rfl⟩ := exists_of_mem_allFlows hflow
    obtain ⟨i, -, hi, -, -, rfl⟩ := of_mem_flowsAt hs hk (hid ▸ hmem)
    have hrules := (Context.of_mem_closeItem hp hi (fun h => absurd h.2 (by omega))).2.1
    have : i.rule = p.rules + n := hrule
    omega

theorem keepsInputs_of_link (hp : p.Proper) {la id id' : Nat} (hlt : id < kernelCount a)
    (h : KeepsInputs p a inputs la id) (hlink : id' ∈ linksAt p a id) :
    KeepsInputs p a inputs la id' := by
  intro s j n st k hs hk hid hrule
  obtain ⟨s', j', st', k', hs', hk', rfl⟩ := exists_kernelNumber hlt
  have hmem := (mem_linksAt hs' hk').mp hlink
  obtain ⟨i, -, hi, -, -, rfl⟩ := of_mem_flowsAt hs hk (hid ▸ hmem)
  by_cases hself : i = k'
  · exact h s' j' n st' k' hs' hk' rfl (hself ▸ hrule)
  · have hrules := (Context.of_mem_closeItem hp hi (fun h => hself h.1)).2.1
    have : i.rule = p.rules + n := hrule
    omega

/-- **Only what may follow an input follows the items of its production.** -/
theorem Ahead.mayFollow (hp : p.Proper) (ha : a.Proper p) {s la n : Nat} {i : Item}
    (h : Ahead p a inputs s i la) (hrule : i.rule = p.rules + n) : MayFollow p inputs n la := by
  obtain ⟨st, j, k, m, hs, hk, hi, hla⟩ := h
  by_cases hself : i = k ∧ m = p.terminals
  · have hla' := (hla.resolve_right fun h => absurd hself.2 (Nat.ne_of_lt h.1)).2
    obtain ⟨v, hv, hvlt, hleads⟩ := mem_lookaheadsOf.mp hla'
    have hkeeps : ∀ {id : Nat}, Leads (kernelCount a) (linksAt p a) v id →
        KeepsInputs p a inputs la id := by
      intro id hleads
      induction hleads with
      | refl => exact keepsInputs_of_generated hp ha hv
      | tail hleads hstep ih =>
        exact keepsInputs_of_link hp (Graph.lt_of_leads hvlt hleads) ih hstep.1
    exact hkeeps hleads s j n st k hs hk rfl (hself.1 ▸ hrule)
  · have hrules := (Context.of_mem_closeItem hp hi hself).2.1
    omega

end Ahead

end GrammarTables.Lr
