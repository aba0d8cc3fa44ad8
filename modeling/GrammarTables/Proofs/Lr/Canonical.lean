import GrammarTables.Proofs.Lr.Beginnings
import GrammarTables.Proofs.Lr.Propagation
/-
# Lookaheads and the canonical collection

In the canonical collection (`Canonical`) each item carries a terminal that follows it, so two sets
may have the same items and differ in what follows them.  A state of the automaton stands for all
sets with its kernel: it has their items (`Covers`), and a terminal may follow an item of a state if
and only if it does so in one of these sets (`Ahead.exists_covers`, `Canonical.exists_state`).  A
production is therefore reduced before exactly the terminals that follow it when it is complete in
one of them, and it is these terminals that rounds of propagation come to rest with
(`lookaheads_exact`).
-/

namespace GrammarTables.Lr

open GrammarTables.Graph (Leads)

variable {g : Grammar}

/-! ## 1. Items with lookaheads -/

section Collection

variable (g)

/-- **An item of the closure**, with a terminal that follows it: an item of the set, or a rule that
an item of the closure expects, followed by what the rest of that item and its own lookahead can
begin with. -/
inductive Closure (K : Set (Item × Nat)) : Item → Nat → Prop
  | seed {i : Item} {a : Nat} : (i, a) ∈ K → Closure K i a
  | expand {i : Item} {x rule a b : Nat} : Closure K i a → i.next? (.ofGrammar g) = some x →
      rule ∈ (Productions.ofGrammar g).rulesOf x →
      g.CanBegin (i.advance.rest (.ofGrammar g) ++ [a]) b → Closure K ⟨rule, 0⟩ b

/-- The closure of a set of items. -/
def closed (K : Set (Item × Nat)) : Set (Item × Nat) := {e | Closure g K e.1 e.2}

/-- The item of an input with each terminal that may follow the input: the end of the input, or any
terminal if the input need not end. -/
def startSeeds (n : Nat) (input : Input) : Set (Item × Nat) :=
  {e | e.1 = ⟨g.ruleList.length + n, 0⟩ ∧ e.2 < g.terminals ∧ (input.hasEoi = true → e.2 = g.eoi)}

/-- The items of a set that expect a symbol, with the dot moved over it. -/
def gotoSeeds (I : Set (Item × Nat)) (x : Nat) : Set (Item × Nat) :=
  {e | ∃ i, (i, e.2) ∈ I ∧ i.next? (.ofGrammar g) = some x ∧ e.1 = i.advance}

/-- **The canonical collection**: the sets that the inputs begin with, and those that reading a
symbol leads to. -/
inductive Canonical : Set (Item × Nat) → Prop
  | start {n : Nat} {input : Input} : g.inputList[n]? = some input →
      Canonical (closed g (startSeeds g n input))
  | goto {I : Set (Item × Nat)} {i : Item} {x a : Nat} : Canonical I → (i, a) ∈ I →
      i.next? (.ofGrammar g) = some x → Canonical (closed g (gotoSeeds g I x))

/-- Whether an item belongs to a kernel: its dot has moved, or it is the item of an input. -/
def Item.InKernel (i : Item) : Prop :=
  0 < i.dot ∨ (Productions.ofGrammar g).isAugmented i.rule = true

/-- The kernel of a set, without lookaheads. -/
def kernelOf (I : Set (Item × Nat)) : Set Item := {i | i.InKernel g ∧ ∃ a, (i, a) ∈ I}

end Collection

/-! ## 2. Closures -/

theorem lt_of_mem_rest (hg : g.WellFormed) {i : Item} {x : Nat} (hx : x ∈ i.rest (.ofGrammar g)) :
    x < g.grammarSymbols :=
  ((Productions.proper_ofGrammar hg).right (List.mem_of_mem_drop hx)).2

/-- What may follow the symbol after the dot. -/
theorem follow_rest_iff (hg : g.WellFormed) (hproductive : g.Productive) {i : Item} {a b : Nat}
    (ha : a < g.terminals) : Context.Follow (.ofGrammar g) (i.rest (.ofGrammar g)) a b ↔
      g.CanBegin (i.rest (.ofGrammar g) ++ [a]) b :=
  Context.follow_iff hg hproductive (fun _ hx => lt_of_mem_rest hg hx) ha

/-- What a kernel consists of: items that belong to kernels, followed by terminals. -/
def KernelSeeds (g : Grammar) (K : Set (Item × Nat)) : Prop :=
  ∀ e ∈ K, e.1.InKernel g ∧ e.2 < g.terminals

section Closures

variable {K I : Set (Item × Nat)}

theorem Closure.lt_terminals (hK : KernelSeeds g K) {i : Item} {a : Nat} (h : Closure g K i a) :
    a < g.terminals := by
  cases h with
  | seed h => exact (hK _ h).2
  | expand _ _ _ hb => exact hb.1

/-- What the closure adds does not belong to its kernel. -/
theorem kernelOf_closed (hg : g.WellFormed) (hK : KernelSeeds g K) :
    kernelOf g (closed g K) = {i | ∃ a, (i, a) ∈ K} := by
  have hp := Productions.proper_ofGrammar hg
  ext i
  constructor
  · rintro ⟨hkernel, a, ha⟩
    cases ha with
    | seed ha => exact ⟨a, ha⟩
    | expand _ hnext hrule _ =>
      have hlt := hp.lt_rules (hp.right (Item.next_mem hnext)).2 hrule
      rcases hkernel with hdot | haugmented
      · exact absurd hdot (Nat.lt_irrefl 0)
      · exact absurd hlt (Nat.not_lt.mpr (of_decide_eq_true haugmented))
  · rintro ⟨a, ha⟩
    exact ⟨(hK _ ha).1, a, .seed ha⟩

/-- **Without lookaheads, the closure is the closure of the kernel.** -/
theorem mem_closure_iff (hg : g.WellFormed) (hproductive : g.Productive) (hK : KernelSeeds g K)
    {kernel : List Item} (hkernel : ∀ i, i ∈ kernel ↔ ∃ a, (i, a) ∈ K) {i : Item} :
    i ∈ closure (.ofGrammar g) kernel ↔ ∃ a, (i, a) ∈ closed g K := by
  have hp := Productions.proper_ofGrammar hg
  constructor
  · -- a lookahead for what is expected is found because rests derive terminals
    refine closure_induction hp (P := fun i => ∃ a, (i, a) ∈ closed g K) ?_ ?_ i
    · intro i hi
      obtain ⟨a, ha⟩ := (hkernel i).mp hi
      exact ⟨a, .seed ha⟩
    · rintro i rule ⟨a, ha⟩ hrule hnext
      obtain ⟨b, hb⟩ :=
        hproductive.exists_canBegin (fun x hx => lt_of_mem_rest hg hx) (ha.lt_terminals hK)
      have hlt := Nat.lt_of_lt_of_le hrule hp.rules_le
      exact ⟨b, .expand ha hnext (hp.mem_rulesOf.mpr ⟨hlt, rfl⟩) hb⟩
  · rintro ⟨a, ha⟩
    change Closure g K i a at ha
    induction ha with
    | @seed i a ha => exact mem_closure.mpr (Or.inl ((hkernel i).mpr ⟨a, ha⟩))
    | expand _ hnext hrule _ ih =>
      obtain ⟨hlt, hleft⟩ := hp.mem_rulesOf.mp hrule
      have hx := mem_expansions_of_next hp ih hnext (hleft ▸ hp.isNonterminal_leftOf hlt)
      exact mem_closure.mpr (Or.inr ⟨_, hx, hrule, rfl⟩)

theorem kernelSeeds_start (g : Grammar) (n : Nat) (input : Input) :
    KernelSeeds g (startSeeds g n input) := by
  rintro ⟨i, a⟩ ⟨rfl, ha, -⟩
  exact ⟨Or.inr (decide_eq_true (Nat.le_add_right ..)), ha⟩

theorem Canonical.lt_terminals (h : Canonical g I) {i : Item} {a : Nat} (hi : (i, a) ∈ I) :
    a < g.terminals := by
  induction h generalizing i a with
  | @start n input _ => exact Closure.lt_terminals (kernelSeeds_start g n input) hi
  | goto _ _ _ ih =>
    cases hi with
    | seed h =>
      obtain ⟨j, hj, -⟩ := h
      exact ih hj
    | expand _ _ _ hb => exact hb.1

theorem kernelSeeds_goto (h : Canonical g I) (x : Nat) : KernelSeeds g (gotoSeeds g I x) := by
  rintro ⟨i, a⟩ ⟨j, hj, -, rfl⟩
  exact ⟨Or.inl (Nat.succ_pos j.dot), h.lt_terminals hj⟩

theorem Canonical.expand (h : Canonical g I) {i : Item} {x rule a b : Nat} (hi : (i, a) ∈ I)
    (hnext : i.next? (.ofGrammar g) = some x) (hrule : rule ∈ (Productions.ofGrammar g).rulesOf x)
    (hb : g.CanBegin (i.advance.rest (.ofGrammar g) ++ [a]) b) : (⟨rule, 0⟩, b) ∈ I := by
  cases h with
  | start => exact Closure.expand hi hnext hrule hb
  | goto => exact Closure.expand hi hnext hrule hb

end Closures

/-! ## 3. Sets and states -/

/-- **A set of the collection with a given kernel**: without lookaheads, its items are those of the
state with that kernel. -/
structure Covers (g : Grammar) (I : Set (Item × Nat)) (kernel : List Item) : Prop where
  canonical : Canonical g I
  kernelOf_eq : kernelOf g I = {i | i ∈ kernel}
  mem_items : ∀ {i : Item}, i ∈ closure (.ofGrammar g) kernel ↔ ∃ a, (i, a) ∈ I

section Covers

variable (hg : g.WellFormed) (hproductive : g.Productive)

include hg hproductive in
theorem covers_closed {K : Set (Item × Nat)} {kernel : List Item}
    (hcanonical : Canonical g (closed g K)) (hK : KernelSeeds g K)
    (hkernel : ∀ i, i ∈ kernel ↔ ∃ a, (i, a) ∈ K) : Covers g (closed g K) kernel where
  canonical := hcanonical
  kernelOf_eq := by
    rw [kernelOf_closed hg hK]
    exact Set.ext fun i => (hkernel i).symm
  mem_items := mem_closure_iff hg hproductive hK hkernel

include hg hproductive in
/-- The set that an input begins with has the items of its start. -/
theorem Covers.start {n : Nat} {input : Input} (h : g.inputList[n]? = some input) :
    Covers g (closed g (startSeeds g n input)) [⟨g.ruleList.length + n, 0⟩] := by
  refine covers_closed hg hproductive (.start h) (kernelSeeds_start g n input) fun i => ?_
  rw [List.mem_singleton]
  constructor
  · rintro rfl
    exact ⟨g.eoi, rfl, hg.terminals_pos, fun _ => rfl⟩
  · rintro ⟨a, ha⟩
    exact ha.1

include hg hproductive in
/-- Reading a symbol leads from the items of a state to those of the state after it. -/
theorem Covers.goto {I : Set (Item × Nat)} {kernel kernel' : List Item} {x : Nat}
    (h : Covers g I kernel)
    (hexpects : ∃ i ∈ closure (.ofGrammar g) kernel, i.next? (.ofGrammar g) = some x)
    (hkernel : ∀ j, j ∈ kernel' ↔ ∃ i ∈ closure (.ofGrammar g) kernel,
      i.next? (.ofGrammar g) = some x ∧ j = i.advance) :
    Covers g (closed g (gotoSeeds g I x)) kernel' := by
  obtain ⟨i, hi, hnext⟩ := hexpects
  obtain ⟨a, ha⟩ := h.mem_items.mp hi
  refine covers_closed hg hproductive (h.canonical.goto ha hnext) (kernelSeeds_goto h.canonical x)
    fun j => (hkernel j).trans ?_
  constructor
  · rintro ⟨i, hi, hnext, rfl⟩
    obtain ⟨a, ha⟩ := h.mem_items.mp hi
    exact ⟨a, i, ha, hnext, rfl⟩
  · rintro ⟨a, i, ha, hnext, rfl⟩
    exact ⟨i, h.mem_items.mpr ⟨a, ha⟩, hnext, rfl⟩

variable {s : Nat} {st : ItemState}

include hg hproductive in
theorem Covers.goto_state {I : Set (Item × Nat)} {t x : Nat} {st' : ItemState}
    (h : Covers g I st.kernel) (hs : (automatonOf g).states[s]? = some st)
    (hgoto : st.goto? x = some t) (ht : (automatonOf g).states[t]? = some st') :
    Covers g (closed g (gotoSeeds g I x)) st'.kernel := by
  have ha : (automatonOf g).Proper (.ofGrammar g) :=
    Automaton.proper_ofProductions (Productions.proper_ofGrammar hg)
  obtain ⟨target, ht', hkernel⟩ := ha.goto hs hgoto
  obtain rfl := Option.some.inj (ht.symm.trans ht')
  have hexpects := ha.goto_next hs hgoto
  rw [ha.items hs] at hkernel hexpects
  exact h.goto hg hproductive hexpects hkernel

include hg hproductive in
/-- **Every state stands for a set of the collection.** -/
theorem exists_covers (hs : (automatonOf g).states[s]? = some st) : ∃ I, Covers g I st.kernel := by
  have hp := Productions.proper_ofGrammar hg
  refine Automaton.kernel_induction hp (P := fun kernel => ∃ I, Covers g I kernel) ?_ ?_ hs
  · intro rule hrule
    obtain ⟨n, hn, rfl⟩ := List.mem_map.mp hrule
    have hlt : n < g.inputList.length := by
      rw [List.mem_range, Productions.size_ofGrammar] at hn
      exact Nat.lt_of_lt_of_eq hn (Nat.add_sub_cancel_left ..)
    exact ⟨_, Covers.start hg hproductive (List.getElem?_eq_getElem hlt)⟩
  · rintro kernel ⟨I, hI⟩ ⟨x, kernel'⟩ he
    obtain ⟨hexpects, rfl⟩ := mem_successors.mp he
    exact ⟨_, hI.goto hg hproductive hexpects fun j => mem_sorted_advance⟩

end Covers

/-! ## 4. From sets to states -/

theorem mayFollow_iff {n la : Nat} {input : Input} (h : g.inputList[n]? = some input) :
    MayFollow (.ofGrammar g) g.inputList n la ↔
      la < g.terminals ∧ (input.hasEoi = true → la = g.eoi) := by
  have hlas : (inputLookaheads (.ofGrammar g) g.inputList)[n]? =
      some (if input.hasEoi then [0] else List.range g.terminals) := by
    rw [inputLookaheads, List.getElem?_map, h]
    rfl
  rw [MayFollow, hlas]
  refine and_congr_right fun hlt => ?_
  have hlt' : la < g.terminals := hlt
  cases input.hasEoi with
  | true => simp [Grammar.eoi]
  | false => simpa using hlt'

section States

variable (hg : g.WellFormed) (hproductive : g.Productive)

include hg hproductive in
/-- What the closure adds may follow, if what it was made from may. -/
theorem ahead_of_closure {K : Set (Item × Nat)} (hK : KernelSeeds g K) {s : Nat}
    (hseed : ∀ e ∈ K, Ahead (.ofGrammar g) (automatonOf g) g.inputList s e.1 e.2) {i : Item}
    {a : Nat} (h : Closure g K i a) :
    Ahead (.ofGrammar g) (automatonOf g) g.inputList s i a := by
  have hp := Productions.proper_ofGrammar hg
  induction h with
  | seed h => exact hseed _ h
  | expand hi hnext hrule hb ih =>
    exact ih.close hp hnext hrule ((follow_rest_iff hg hproductive (hi.lt_terminals hK)).mpr hb)

include hg hproductive in
/-- **Each set of the collection belongs to a state**, where its lookaheads may follow. -/
theorem Canonical.exists_state {I : Set (Item × Nat)} (h : Canonical g I) :
    ∃ s st, (automatonOf g).states[s]? = some st ∧ Covers g I st.kernel ∧
      ∀ e ∈ I, Ahead (.ofGrammar g) (automatonOf g) g.inputList s e.1 e.2 := by
  have hp := Productions.proper_ofGrammar hg
  have ha : (automatonOf g).Proper (.ofGrammar g) := Automaton.proper_ofProductions hp
  induction h with
  | @start n input hinput =>
    have hlt : n < (automatonOf g).starts.length := by
      rw [ha.length_starts, Productions.size_ofGrammar]
      exact (List.getElem?_eq_some_iff.mp hinput).1.trans_eq (Nat.add_sub_cancel_left ..).symm
    have hs := List.getElem?_eq_getElem hlt
    obtain ⟨st, hst, hkernel⟩ := ha.starts hs
    refine ⟨_, st, hst, hkernel ▸ Covers.start hg hproductive hinput, fun e he => ?_⟩
    refine ahead_of_closure hg hproductive (kernelSeeds_start g n input) ?_ he
    rintro ⟨i, a⟩ ⟨rfl, hfollow⟩
    exact Ahead.start ha hs ((mayFollow_iff hinput).mpr hfollow)
  | @goto I i x a hI hi hnext ih =>
    obtain ⟨s, st, hs, hcovers, hahead⟩ := ih
    obtain ⟨t, hgoto⟩ := ha.exists_goto hs ((hahead _ hi).mem_items hp ha hs) hnext
    obtain ⟨st', ht, -⟩ := ha.goto hs hgoto
    refine ⟨t, st', ht, hcovers.goto_state hg hproductive hs hgoto ht, fun e he => ?_⟩
    refine ahead_of_closure hg hproductive (kernelSeeds_goto hI x) ?_ he
    rintro ⟨j, b⟩ ⟨i, hi, hnext, rfl⟩
    exact (hahead _ hi).goto hp ha hnext hs hgoto

end States

/-! ## 5. From states to sets -/

/-- The mark for what follows a kernel item is replaced by a terminal that does. -/
def fillMark (g : Grammar) (a m : Nat) : Nat :=
  if m = (Productions.ofGrammar g).terminals then a else m

theorem fillMark_mark (g : Grammar) (a : Nat) :
    fillMark g a (Productions.ofGrammar g).terminals = a := if_pos rfl

theorem fillMark_of_lt {a m : Nat} (h : m < (Productions.ofGrammar g).terminals) :
    fillMark g a m = m := if_neg (Nat.ne_of_lt h)

theorem follow_fillMark {rest : List Nat} {a m b : Nat}
    (h : Context.Follow (.ofGrammar g) rest m b) :
    Context.Follow (.ofGrammar g) rest (fillMark g a m) (fillMark g a b) := by
  rcases h with h | ⟨hnull, rfl⟩
  · rw [fillMark_of_lt (FirstSets.lt_terminals h)]
    exact Or.inl h
  · exact Or.inr ⟨hnull, rfl⟩

section Sets

variable (hg : g.WellFormed) (hproductive : g.Productive)

include hg hproductive in
/-- A set of the collection has what an item calls for, with the mark replaced. -/
theorem Canonical.mem_of_follow {I : Set (Item × Nat)} (hI : Canonical g I) {i : Item}
    {a x rule m b : Nat} (hi : (i, fillMark g a m) ∈ I) (hnext : i.next? (.ofGrammar g) = some x)
    (hrule : rule ∈ (Productions.ofGrammar g).rulesOf x)
    (hb : Context.Follow (.ofGrammar g) (i.advance.rest (.ofGrammar g)) m b) :
    (⟨rule, 0⟩, fillMark g a b) ∈ I := by
  refine hI.expand hi hnext hrule ?_
  exact (follow_rest_iff hg hproductive (hI.lt_terminals hi)).mp (follow_fillMark hb)

include hg hproductive in
/-- **A set with a kernel item has the closure of the item**, with the mark replaced. -/
theorem Canonical.mem_of_closeItem {I : Set (Item × Nat)} (hI : Canonical g I) {k i : Item}
    {a m : Nat} (hk : (k, a) ∈ I)
    (h : (i, m) ∈ (Context.ofProductions (.ofGrammar g)).closeItem k) :
    (i, fillMark g a m) ∈ I := by
  have hp := Productions.proper_ofGrammar hg
  rcases Context.mem_closeItem.mp h with ⟨rfl, rfl⟩ | ⟨v, w, hv, -, hleads, hrule, hdot, rfl⟩
  · rwa [fillMark_mark]
  · obtain ⟨x, hnext, -, b, hb, rfl⟩ := Context.mem_seeds.mp hv
    -- every code that is reached stands for rules of the set
    have hreached : ∀ {n w : Nat}, Leads n (Context.ofProductions (.ofGrammar g)).expand
        ((Context.ofProductions (.ofGrammar g)).code x b) w →
        ∀ rule ∈ (Productions.ofGrammar g).rulesOf (w / ((Productions.ofGrammar g).terminals + 1)),
          (⟨rule, 0⟩, fillMark g a (w % ((Productions.ofGrammar g).terminals + 1))) ∈ I := by
      intro n w hleads
      induction hleads with
      | refl =>
        intro rule hrule
        have hle := hb.le (Nat.le_refl _)
        rw [Context.code_div hle] at hrule
        rw [Context.code_mod hle]
        rw [← fillMark_mark g a] at hk
        exact hI.mem_of_follow hg hproductive hk hnext hrule hb
      | @tail u w _ hstep ih =>
        intro rule hrule
        obtain ⟨r, hr, y, ys, hright, -, d, hd, rfl⟩ := (Context.mem_expand hp).mp hstep.1
        have hle := hd.le (Nat.le_of_lt_succ (Nat.mod_lt u (Nat.succ_pos _)))
        have hrest : Item.rest (.ofGrammar g) ⟨r, 0⟩ = y :: ys := hright
        obtain ⟨hnext', hrest'⟩ := Item.next_of_rest hrest
        rw [Context.code_div hle] at hrule
        rw [Context.code_mod hle]
        exact hI.mem_of_follow hg hproductive (ih r hr) hnext' hrule (hrest'.symm ▸ hd)
    have hzero : (⟨i.rule, 0⟩ : Item) = i := Item.eq_of_eq rfl hdot.symm
    exact hzero ▸ hreached hleads i.rule hrule

/-- A terminal follows a kernel item, given by its number, in a set of the collection. -/
def FollowsInSet (g : Grammar) (la id : Nat) : Prop :=
  ∀ (s j : Nat) (st : ItemState) (k : Item), (automatonOf g).states[s]? = some st →
    st.kernel[j]? = some k → id = kernelNumber (automatonOf g) s j →
    ∃ I, Covers g I st.kernel ∧ (k, la) ∈ I

include hg hproductive in
/-- What the closure of a kernel item sends on follows the kernel item that it is sent to. -/
theorem followsInSet_of_flow {I : Set (Item × Nat)} {s id a m : Nat} {st : ItemState} {k : Item}
    (hI : Covers g I st.kernel) (hs : (automatonOf g).states[s]? = some st) (hk : (k, a) ∈ I)
    (h : (.kernel id, m) ∈ flowsAt (.ofGrammar g) (automatonOf g) st k) :
    FollowsInSet g (fillMark g a m) id := by
  intro t j st' k' ht hk' hid
  obtain ⟨i, x, hi, hnext, hgoto, rfl⟩ := of_mem_flowsAt ht hk' (hid ▸ h)
  refine ⟨_, hI.goto_state hg hproductive hs hgoto ht, ?_⟩
  exact Closure.seed ⟨i, hI.canonical.mem_of_closeItem hg hproductive hk hi, hnext, rfl⟩

include hg hproductive in
theorem followsInSet_of_generated {la id : Nat}
    (h : id ∈ generatedFor (.ofGrammar g) (automatonOf g) g.inputList la) :
    FollowsInSet g la id := by
  have ha : (automatonOf g).Proper (.ofGrammar g) :=
    Automaton.proper_ofProductions (Productions.proper_ofGrammar hg)
  obtain ⟨hlt, ⟨e, he, hla, rfl⟩ | ⟨flow, hflow, hmem⟩⟩ := mem_generatedFor.mp h
  · intro s j st k hs hk hid
    obtain ⟨⟨s', las⟩, hzip, rfl⟩ := List.mem_map.mp he
    obtain ⟨n, hn⟩ := List.mem_iff_getElem?.mp hzip
    obtain ⟨hs', hlas⟩ := List.getElem?_zip_eq_some.mp hn
    obtain ⟨st', hst', hkernel⟩ := ha.starts hs'
    have hk' : st'.kernel[0]? = some ⟨g.ruleList.length + n, 0⟩ := by rw [hkernel]; rfl
    obtain ⟨rfl, rfl⟩ := kernelNumber_inj hs hst' hk hk' hid.symm
    obtain rfl := Option.some.inj (hs.symm.trans hst')
    obtain rfl := Option.some.inj (hk.symm.trans hk')
    obtain ⟨input, hinput, -⟩ := Option.map_eq_some_iff.mp
      ((List.getElem?_map ..).symm.trans hlas)
    have hfollow := (mayFollow_iff hinput).mp ⟨hlt, las, hlas, hla⟩
    exact ⟨_, hkernel ▸ Covers.start hg hproductive hinput, .seed ⟨rfl, hfollow⟩⟩
  · obtain ⟨s, st, k, hs, hk, rfl⟩ := exists_of_mem_allFlows hflow
    obtain ⟨I, hI⟩ := exists_covers hg hproductive hs
    obtain ⟨a, hka⟩ := hI.mem_items.mp (mem_closure.mpr (Or.inl hk))
    have hfollows := followsInSet_of_flow hg hproductive hI hs hka hmem
    rwa [fillMark_of_lt hlt] at hfollows

include hg hproductive in
theorem followsInSet_of_link {la id id' : Nat} (hlt : id < kernelCount (automatonOf g))
    (h : FollowsInSet g la id) (hlink : id' ∈ linksAt (.ofGrammar g) (automatonOf g) id) :
    FollowsInSet g la id' := by
  obtain ⟨s, j, st, k, hs, hk, rfl⟩ := exists_kernelNumber hlt
  obtain ⟨I, hI, hkI⟩ := h s j st k hs hk rfl
  have hfollows := followsInSet_of_flow hg hproductive hI hs hkI ((mem_linksAt hs hk).mp hlink)
  rwa [fillMark_mark] at hfollows

include hg hproductive in
/-- **What flows to a kernel item follows it in a set of the collection.** -/
theorem followsInSet_of_lookahead {la id : Nat}
    (h : la ∈ lookaheadsOf (.ofGrammar g) (automatonOf g) g.inputList id) :
    FollowsInSet g la id := by
  obtain ⟨v, hv, hlt, hleads⟩ := mem_lookaheadsOf.mp h
  clear h
  induction hleads with
  | refl => exact followsInSet_of_generated hg hproductive hv
  | tail hleads hstep ih =>
    exact followsInSet_of_link hg hproductive (Graph.lt_of_leads hlt hleads) ih hstep.1

include hg hproductive in
/-- **What may follow an item of a state follows it in a set of the collection.** -/
theorem Ahead.exists_covers {s la : Nat} {i : Item} {st : ItemState}
    (h : Ahead (.ofGrammar g) (automatonOf g) g.inputList s i la)
    (hs : (automatonOf g).states[s]? = some st) : ∃ I, Covers g I st.kernel ∧ (i, la) ∈ I := by
  obtain ⟨st', j, k, m, hs', hk, hi, hla⟩ := h
  obtain rfl := Option.some.inj (hs.symm.trans hs')
  rcases hla with ⟨rfl, hla⟩ | ⟨hm, rfl⟩
  · obtain ⟨I, hI, hkI⟩ := followsInSet_of_lookahead hg hproductive hla s j st k hs hk rfl
    have hmem := hI.canonical.mem_of_closeItem hg hproductive hkI hi
    rw [fillMark_mark] at hmem
    exact ⟨I, hI, hmem⟩
  · obtain ⟨I, hI⟩ := Lr.exists_covers hg hproductive hs
    obtain ⟨a, hka⟩ := hI.mem_items.mp (mem_closure.mpr (Or.inl (List.mem_of_getElem? hk)))
    have hmem := hI.canonical.mem_of_closeItem hg hproductive hka hi
    rw [fillMark_of_lt hm] at hmem
    exact ⟨I, hI, hmem⟩

end Sets

/-! ## 6. Reductions -/

/-- What is reduced is complete in the closure of a kernel item. -/
theorem exists_complete_of_mem_reductionsOf {flows : List (List (Flow × Nat))} {follows rule : Nat}
    {kernelLas : List (List Nat)} {las : List Nat}
    (h : (rule, las) ∈ reductionsOf flows follows kernelLas) :
    ∃ flow ∈ flows, ∃ m, (.complete rule, m) ∈ flow := by
  rw [reductionsOf] at h
  obtain ⟨r, hr, heq⟩ := List.mem_map.mp h
  obtain ⟨rfl, -⟩ := Prod.mk.inj heq
  obtain ⟨⟨r', las'⟩, hmem, rfl⟩ := List.mem_map.mp (mem_ascending.mp hr)
  obtain ⟨⟨flow, las''⟩, hzip, hmem⟩ := List.mem_flatMap.mp hmem
  obtain ⟨⟨f, m⟩, hf, hsome⟩ := List.mem_filterMap.mp hmem
  cases f with
  | kernel id => cases hsome
  | complete r'' =>
    obtain ⟨rfl, -⟩ := Prod.mk.inj (Option.some.inj hsome)
    exact ⟨flow, (List.of_mem_zip hzip).1, m, hf⟩

/-- The item of a rule that is complete. -/
def completeItem (g : Grammar) (rule : Nat) : Item :=
  ⟨rule, ((Productions.ofGrammar g).rightOf rule).length⟩

theorem next?_completeItem (g : Grammar) (rule : Nat) :
    (completeItem g rule).next? (.ofGrammar g) = none :=
  List.getElem?_eq_none (Nat.le_refl _)

section Reductions

variable (hg : g.WellFormed) {s : Nat} {st : ItemState}
  (hs : (automatonOf g).states[s]? = some st)

include hg hs in
/-- A complete item of a state is the complete item of its rule. -/
theorem eq_completeItem {i : Item} (hi : i ∈ st.items) (hnext : i.next? (.ofGrammar g) = none) :
    i = completeItem g i.rule := by
  have hp := Productions.proper_ofGrammar hg
  have ha : (automatonOf g).Proper (.ofGrammar g) := Automaton.proper_ofProductions hp
  have hvalid := valid_of_mem_closure hp (ha.kernel hs).2 i (ha.items hs ▸ hi)
  exact Item.eq_of_eq rfl (Nat.le_antisymm hvalid.2 (List.getElem?_eq_none_iff.mp hnext))

include hg hs in
/-- A production that is reduced in a state is complete there. -/
theorem completeItem_mem_of_mem_reductions {rule : Nat} {las : List Nat}
    (h : (rule, las) ∈ (reductionsFor g).getD s []) : completeItem g rule ∈ st.items := by
  have hp := Productions.proper_ofGrammar hg
  have ha : (automatonOf g).Proper (.ofGrammar g) := Automaton.proper_ofProductions hp
  rw [reductionsFor, getD_reductions hs] at h
  obtain ⟨flow, hflow, m, hm⟩ := exists_complete_of_mem_reductionsOf h
  obtain ⟨k, hk, rfl⟩ := List.mem_map.mp hflow
  obtain ⟨i, hi, hf⟩ := mem_flowsAt.mp hm
  obtain ⟨hnext, rfl⟩ := flowOf?_eq_complete.mp hf
  have hitem : i ∈ st.items := by
    rw [ha.items hs]
    by_cases hself : i = k ∧ m = (Productions.ofGrammar g).terminals
    · exact mem_closure.mpr (Or.inl (hself.1 ▸ hk))
    · exact (Context.of_mem_closeItem hp hi hself).2.2 _ hk
  exact eq_completeItem hg hs hitem hnext ▸ hitem

include hg hs in
/-- **A production is reduced before what follows its complete item in the sets of a state.** -/
theorem mem_candidates_iff_canonical (hproductive : g.Productive) {rule a : Nat} :
    rule ∈ candidates ((reductionsFor g).getD s []) a ↔ ∃ I, Canonical g I ∧
      kernelOf g I = {i | i ∈ st.kernel} ∧ (completeItem g rule, a) ∈ I := by
  have hp := Productions.proper_ofGrammar hg
  have ha : (automatonOf g).Proper (.ofGrammar g) := Automaton.proper_ofProductions hp
  rw [reductionsFor, mem_candidates_iff hs]
  constructor
  · rintro ⟨i, hahead, hnext, rfl⟩
    obtain ⟨I, hI, hi⟩ := hahead.exists_covers hg hproductive hs
    rw [eq_completeItem hg hs (hahead.mem_items hp ha hs) hnext] at hi
    exact ⟨I, hI.canonical, hI.kernelOf_eq, hi⟩
  · rintro ⟨I, hI, hkernel, hi⟩
    obtain ⟨t, st', ht, hcovers, hahead⟩ := hI.exists_state hg hproductive
    -- a state is known by its kernel
    have heq : st.kernel = st'.kernel := by
      refine Item.ranks_before.ext (ha.kernel hs).1 (ha.kernel ht).1 fun i => ?_
      exact Set.ext_iff.mp (hkernel.symm.trans hcovers.kernelOf_eq) i
    obtain rfl := Automaton.kernel_inj hp hs ht heq
    exact ⟨_, hahead _ hi, next?_completeItem g rule, rfl⟩

end Reductions

/-- **Lookaheads are exact.**  The reductions of a state are those of its complete rules, one for
each in the order of the rules, and a rule is reduced before exactly the terminals that follow its
complete item in a set of the canonical collection with the kernel of the state.  They are what
the flows of the state make of the lookaheads that propagation comes to rest with. -/
theorem lookaheads_exact {g : Grammar} (hg : g.Frozen) (hproductive : g.Productive) {s : Nat}
    {st : ItemState} (hs : (automatonOf g).states[s]? = some st) :
    ((reductionsFor g).getD s []).Pairwise (fun e f => e.1 < f.1) ∧
    (∀ rule, (∃ las, (rule, las) ∈ (reductionsFor g).getD s []) ↔
      completeItem g rule ∈ st.items) ∧
    (∀ rule las, (rule, las) ∈ (reductionsFor g).getD s [] → ∀ a, a ∈ las ↔
      ∃ I, Canonical g I ∧ kernelOf g I = {i | i ∈ st.kernel} ∧ (completeItem g rule, a) ∈ I) ∧
    ∃ rows : Rows, RestsAt (Rows.spread (allLinks (.ofGrammar g) (automatonOf g)))
        (generatedRows (.ofGrammar g) (automatonOf g) g.inputList) rows ∧
      (reductionsFor g).getD s [] =
        reductionsOf (st.kernel.map (flowsAt (.ofGrammar g) (automatonOf g) st)) g.terminals
          ((List.range st.kernel.length).map fun j =>
            rows.las (kernelNumber (automatonOf g) s j)) := by
  have hp := Productions.proper_ofGrammar hg.wellFormed
  have ha : (automatonOf g).Proper (.ofGrammar g) := Automaton.proper_ofProductions hp
  have hordered : ((reductionsFor g).getD s []).Pairwise fun e f => e.1 < f.1 := by
    rw [reductionsFor, getD_reductions hs]
    exact pairwise_reductionsOf _ _ _
  obtain ⟨rows, hrests, hrounds⟩ :=
    reductions_of_rounds (.ofGrammar g) (automatonOf g) g.inputList
  refine ⟨hordered, fun rule => ⟨?_, ?_⟩, fun rule las h a => ?_, rows, hrests, hrounds s st hs⟩
  · rintro ⟨las, h⟩
    exact completeItem_mem_of_mem_reductions hg.wellFormed hs h
  · intro hitem
    obtain ⟨I, hI⟩ := exists_covers hg.wellFormed hproductive hs
    rw [ha.items hs] at hitem
    obtain ⟨a, hmem⟩ := hI.mem_items.mp hitem
    obtain ⟨las, hlas, -⟩ := mem_candidates.mp ((mem_candidates_iff_canonical hg.wellFormed hs
      hproductive).mpr ⟨I, hI.canonical, hI.kernelOf_eq, hmem⟩)
    exact ⟨las, hlas⟩
  · rw [← mem_candidates_iff_canonical hg.wellFormed hs hproductive, mem_candidates]
    refine ⟨fun hla => ⟨las, h, hla⟩, ?_⟩
    rintro ⟨las', h', hla⟩
    have hnodup := (List.pairwise_map.mpr hordered).imp Nat.ne_of_lt
    have hone : (rule, las) = (rule, las') := List.inj_on_of_nodup_map hnodup h h' rfl
    rwa [(Prod.mk.inj hone).2]

/-! ## 7. A grammar -/

/-- A grammar of values and of assignments to places, where a place is a name or what a value points
to. -/
def assignDraft : Draft :=
  { stamp := 0
    symbols := #[{ index := 0, name := eoiName, kind := .terminal },
      { index := 1, name := "equals", kind := .terminal },
      { index := 2, name := "star", kind := .terminal },
      { index := 3, name := "name", kind := .terminal },
      { index := 4, name := "statement", kind := .nonterminal },
      { index := 5, name := "place", kind := .nonterminal },
      { index := 6, name := "value", kind := .nonterminal }]
    rules := #[{ left := 4, right := [{ target := 5 }, { target := 1 }, { target := 6 }] },
      { left := 4, right := [{ target := 6 }] },
      { left := 5, right := [{ target := 2 }, { target := 6 }] },
      { left := 5, right := [{ target := 3 }] },
      { left := 6, right := [{ target := 5 }] }]
    inputs := #[{ target := 4, hasEoi := true }] }

theorem assignDraft_reached : assignDraft.Reached := by
  have hequals : (Draft.new 0).addTerminal "equals" none none
      = .ok (⟨0, 1⟩, { Draft.new 0 with symbols := assignDraft.symbols.take 2 }) := by
    with_unfolding_all rfl
  have hstar : { Draft.new 0 with symbols := assignDraft.symbols.take 2 }.addTerminal "star" none
      none = .ok (⟨0, 2⟩, { Draft.new 0 with symbols := assignDraft.symbols.take 3 }) := by
    with_unfolding_all rfl
  have hname : { Draft.new 0 with symbols := assignDraft.symbols.take 3 }.addTerminal "name" none
      none = .ok (⟨0, 3⟩, { Draft.new 0 with symbols := assignDraft.symbols.take 4 }) := by
    with_unfolding_all rfl
  have hstatement : { Draft.new 0 with symbols := assignDraft.symbols.take 4 }.addNonterminal
      "statement" none none
      = .ok (⟨0, 4⟩, { Draft.new 0 with symbols := assignDraft.symbols.take 5 }) := by
    with_unfolding_all rfl
  have hplace : { Draft.new 0 with symbols := assignDraft.symbols.take 5 }.addNonterminal "place"
      none none = .ok (⟨0, 5⟩, { Draft.new 0 with symbols := assignDraft.symbols.take 6 }) := by
    with_unfolding_all rfl
  have hvalue : { Draft.new 0 with symbols := assignDraft.symbols.take 6 }.addNonterminal "value"
      none none = .ok (⟨0, 6⟩, { assignDraft with rules := #[], inputs := #[] }) := by
    with_unfolding_all rfl
  have hsymbols := (((((Draft.Reached.new 0).terminal hequals).terminal hstar).terminal
    hname).nonterminal hstatement).nonterminal hplace |>.nonterminal hvalue
  have hinput : { assignDraft with rules := #[], inputs := #[] }.addInput ⟨0, 4⟩ true none
      = .ok { assignDraft with rules := #[] } := rfl
  have hassign : { assignDraft with rules := #[] }.addRule ⟨0, 4⟩ [⟨0, 5⟩, ⟨0, 1⟩, ⟨0, 6⟩]
      = .ok (0, { assignDraft with rules := assignDraft.rules.take 1 }) := rfl
  have hvalues : { assignDraft with rules := assignDraft.rules.take 1 }.addRule ⟨0, 4⟩ [⟨0, 6⟩]
      = .ok (1, { assignDraft with rules := assignDraft.rules.take 2 }) := rfl
  have hpointer : { assignDraft with rules := assignDraft.rules.take 2 }.addRule ⟨0, 5⟩
      [⟨0, 2⟩, ⟨0, 6⟩] = .ok (2, { assignDraft with rules := assignDraft.rules.take 3 }) := rfl
  have hnamed : { assignDraft with rules := assignDraft.rules.take 3 }.addRule ⟨0, 5⟩ [⟨0, 3⟩]
      = .ok (3, { assignDraft with rules := assignDraft.rules.take 4 }) := rfl
  have hread : { assignDraft with rules := assignDraft.rules.take 4 }.addRule ⟨0, 6⟩ [⟨0, 5⟩]
      = .ok (4, assignDraft) := rfl
  exact (((((hsymbols.input hinput).addRule hassign).addRule hvalues).addRule hpointer).addRule
    hnamed).addRule hread

/-- A name is a place, a value and a statement. -/
theorem productive_assignDraft : assignDraft.freeze.Productive := by
  have hrules : [3, 4, 1].map (fun rule =>
      ((Productions.ofGrammar assignDraft.freeze).leftOf rule,
        (Productions.ofGrammar assignDraft.freeze).rightOf rule))
      = [(5, [3]), (6, [5]), (4, [6])] := by
    decide +kernel
  simp only [List.map_cons, List.map_nil, List.cons.injEq, Prod.mk.injEq, and_true] at hrules
  obtain ⟨⟨hleft₃, hright₃⟩, ⟨hleft₄, hright₄⟩, hleft₁, hright₁⟩ := hrules
  have hlength : assignDraft.freeze.ruleList.length = 5 := by decide +kernel
  have hplace : assignDraft.freeze.Derives [5] [3] :=
    .single (hleft₃ ▸ hright₃ ▸ rewrites_production (by omega))
  have hvalue : assignDraft.freeze.Derives [6] [3] :=
    .head (hleft₄ ▸ hright₄ ▸ rewrites_production (by omega)) hplace
  have hstatement : assignDraft.freeze.Derives [4] [3] :=
    .head (hleft₁ ▸ hright₁ ▸ rewrites_production (by omega)) hvalue
  have hterminals : assignDraft.freeze.terminals = 4 := by decide +kernel
  have hsymbols : assignDraft.freeze.grammarSymbols = 7 := by decide +kernel
  intro x hge hlt
  refine ⟨[3], by simp [hterminals], ?_⟩
  obtain rfl | rfl | rfl : x = 4 ∨ x = 5 ∨ x = 6 := by omega
  · exact hstatement
  · exact hplace
  · exact hvalue

/-- After a place a statement may go on with an assignment, so the place is a value only at the end
of the input. -/
theorem lookaheads_exact_assign : ∃ st, (automatonOf assignDraft.freeze).states[4]? = some st ∧
    st.kernel = [⟨0, 1⟩, ⟨4, 1⟩] ∧
    (∃ I, Canonical assignDraft.freeze I ∧
      kernelOf assignDraft.freeze I = {i | i ∈ st.kernel} ∧
      (completeItem assignDraft.freeze 4, 0) ∈ I) ∧
    ¬ ∃ I, Canonical assignDraft.freeze I ∧
      kernelOf assignDraft.freeze I = {i | i ∈ st.kernel} ∧
      (completeItem assignDraft.freeze 4, 1) ∈ I := by
  have hstate : (automatonOf assignDraft.freeze).states[4]?.map (·.kernel)
      = some [⟨0, 1⟩, ⟨4, 1⟩] := by
    decide +kernel
  have hreductions : (reductionsFor assignDraft.freeze).getD 4 [] = [(4, [0])] := by
    decide +kernel
  obtain ⟨st, hst, hkernel⟩ := Option.map_eq_some_iff.mp hstate
  obtain ⟨-, -, hexact, -⟩ :=
    lookaheads_exact ⟨assignDraft, assignDraft_reached, rfl⟩ productive_assignDraft hst
  have hlas := hexact 4 [0] (by rw [hreductions]; simp)
  exact ⟨st, hst, hkernel, (hlas 0).mp (by simp), fun h => absurd ((hlas 1).mpr h) (by simp)⟩

end GrammarTables.Lr
