import GrammarTables.Lr.Lookahead
import GrammarTables.Proofs.Arrays
import GrammarTables.Proofs.Lr.Automaton
import GrammarTables.Proofs.Lr.First
/-
# Flow of lookaheads

The closure of a kernel item has each initial item that its items call for, with what may follow
it (`Context.initial_mem_closeItem`).  All kernel items are numbered, and the lookaheads of a kernel
item are what reaches its number from where it is generated (`mem_lookaheadsOf`).
-/

namespace GrammarTables.Lr

open GrammarTables.Graph (Leads)

variable {p : Productions}

/-! ## 1. Closing a kernel item -/

theorem FirstSets.lt_terminals {xs : List Nat} {b : Nat}
    (h : b ∈ (FirstSets.ofProductions p).ofSeq xs) : b < p.terminals := by
  rw [ofSeq, mem_ascending] at h
  obtain ⟨x, -, hb⟩ := List.mem_flatMap.mp h
  exact ((mem_firstOf (lt_of_mem_firstOf hb)).mp hb).2

namespace Context

/-- What may follow a symbol before `rest`, in an item followed by `lookahead`. -/
def Follow (p : Productions) (rest : List Nat) (lookahead b : Nat) : Prop :=
  b ∈ (FirstSets.ofProductions p).ofSeq rest ∨
    (FirstSets.ofProductions p).isNullable rest = true ∧ b = lookahead

theorem Follow.le {rest : List Nat} {lookahead b : Nat} (h : Follow p rest lookahead b)
    (hle : lookahead ≤ p.terminals) : b ≤ p.terminals := by
  rcases h with h | ⟨-, rfl⟩
  · exact Nat.le_of_lt (FirstSets.lt_terminals h)
  · exact hle

theorem follows_eq (p : Productions) : (ofProductions p).follows = p.terminals := rfl

theorem code_div {x b : Nat} (hb : b ≤ p.terminals) :
    (ofProductions p).code x b / (p.terminals + 1) = x := by
  rw [code, follows_eq, Nat.mul_comm, Nat.mul_add_div (Nat.succ_pos _),
    Nat.div_eq_of_lt (Nat.lt_succ_of_le hb), Nat.add_zero]

theorem code_mod {x b : Nat} (hb : b ≤ p.terminals) :
    (ofProductions p).code x b % (p.terminals + 1) = b := by
  rw [code, follows_eq, Nat.mul_comm, Nat.mul_add_mod, Nat.mod_eq_of_lt (Nat.lt_succ_of_le hb)]

theorem code_lt {x b : Nat} (hx : x < p.byLeft.size) (hb : b ≤ p.terminals) :
    (ofProductions p).code x b < p.byLeft.size * (p.terminals + 1) := by
  rw [code, follows_eq]
  calc x * (p.terminals + 1) + b < x * (p.terminals + 1) + (p.terminals + 1) := by omega
    _ = (x + 1) * (p.terminals + 1) := by rw [Nat.succ_mul]
    _ ≤ p.byLeft.size * (p.terminals + 1) := Nat.mul_le_mul_right _ hx

theorem mem_after {rest : List Nat} {x lookahead v : Nat} :
    v ∈ (ofProductions p).after ((FirstSets.ofProductions p).ofSeq rest,
      (FirstSets.ofProductions p).isNullable rest) x lookahead ↔
    p.terminals ≤ x ∧ ∃ b, Follow p rest lookahead b ∧ v = (ofProductions p).code x b := by
  have hctx : (ofProductions p).productions = p := rfl
  unfold after Follow
  rw [hctx]
  by_cases hx : p.terminals ≤ x
  · simp only [Productions.isNonterminal, hx, decide_true, if_true, true_and, List.mem_append,
      List.mem_map]
    constructor
    · rintro (⟨b, hb, rfl⟩ | hv)
      · exact ⟨b, Or.inl hb, rfl⟩
      · split at hv
        · rename_i hnull
          exact ⟨lookahead, Or.inr ⟨hnull, rfl⟩, List.mem_singleton.mp hv⟩
        · simp at hv
    · rintro ⟨b, hb | ⟨hnull, rfl⟩, rfl⟩
      · exact Or.inl ⟨b, hb, rfl⟩
      · exact Or.inr (by simp [hnull])
  · simp [Productions.isNonterminal, hx]

theorem mem_expand (hp : p.Proper) {v w : Nat} : w ∈ (ofProductions p).expand v ↔
    ∃ rule ∈ p.rulesOf (v / (p.terminals + 1)), ∃ x xs, p.rightOf rule = x :: xs ∧
      p.terminals ≤ x ∧ ∃ b, Follow p xs (v % (p.terminals + 1)) b ∧
        w = (ofProductions p).code x b := by
  have htails : ∀ {rule x : Nat} {xs : List Nat}, rule < p.size → p.rightOf rule = x :: xs →
      (ofProductions p).tails.getD rule ([], true) = ((FirstSets.ofProductions p).ofSeq xs,
        (FirstSets.ofProductions p).isNullable xs) := by
    intro rule x xs hlt hright
    have hlt' : rule < p.right.size := hp.size_right ▸ hlt
    have hget : p.right[rule] = x :: xs := by
      rw [← hright]
      simp [Productions.rightOf, Array.getD_eq_getD_getElem?, hlt']
    simp [ofProductions, Array.getD_eq_getD_getElem?, hlt', hget]
  have hctx : (ofProductions p).productions = p := rfl
  unfold expand
  rw [hctx, follows_eq, List.mem_flatMap]
  refine exists_congr fun rule => and_congr_right fun hrule => ?_
  cases hright : p.rightOf rule with
  | nil => simp
  | cons x xs =>
    simp only [htails (hp.mem_rulesOf.mp hrule).1 hright, mem_after, List.cons.injEq]
    constructor
    · intro h
      exact ⟨x, xs, ⟨rfl, rfl⟩, h⟩
    · rintro ⟨x', xs', ⟨rfl, rfl⟩, h⟩
      exact h

/-- What a kernel item is closed from: its next symbol. -/
def seeds (p : Productions) (k : Item) : List Nat :=
  match k.next? p with
  | some x => (ofProductions p).after ((FirstSets.ofProductions p).ofSeq (k.advance.rest p),
      (FirstSets.ofProductions p).isNullable (k.advance.rest p)) x p.terminals
  | none => []

theorem mem_seeds {k : Item} {v : Nat} : v ∈ seeds p k ↔ ∃ x, k.next? p = some x ∧
    p.terminals ≤ x ∧ ∃ b, Follow p (k.advance.rest p) p.terminals b ∧
      v = (ofProductions p).code x b := by
  unfold seeds
  cases hnext : k.next? p with
  | none => simp
  | some x => simp [mem_after]

/-- The members of a closure: the kernel item itself, and initial items that are reached. -/
theorem mem_closeItem {k i : Item} {m : Nat} : (i, m) ∈ (ofProductions p).closeItem k ↔
    i = k ∧ m = p.terminals ∨
      ∃ v w, v ∈ seeds p k ∧ v < p.byLeft.size * (p.terminals + 1) ∧
        Leads (p.byLeft.size * (p.terminals + 1)) (ofProductions p).expand v w ∧
        i.rule ∈ p.rulesOf (w / (p.terminals + 1)) ∧ i.dot = 0 ∧ m = w % (p.terminals + 1) := by
  have hclose : (ofProductions p).closeItem k = (k, p.terminals) ::
      (Graph.reachable (p.byLeft.size * (p.terminals + 1)) (ofProductions p).expand
        (seeds p k)).flatMap fun v =>
          (initialItems p (v / (p.terminals + 1))).map (·, v % (p.terminals + 1)) := rfl
  rw [hclose, List.mem_cons, List.mem_flatMap, Prod.mk.injEq]
  refine or_congr_right ?_
  simp only [Graph.mem_reachable, List.mem_map, mem_initialItems, Prod.mk.injEq]
  constructor
  · rintro ⟨w, ⟨v, hv, hlt, hleads⟩, j, ⟨hrule, hdot⟩, rfl, rfl⟩
    exact ⟨v, w, hv, hlt, hleads, hrule, hdot, rfl⟩
  · rintro ⟨v, w, hv, hlt, hleads, hrule, hdot, rfl⟩
    exact ⟨w, ⟨v, hv, hlt, hleads⟩, i, ⟨hrule, hdot⟩, rfl, rfl⟩

theorem lookahead_le {k i : Item} {m : Nat} (h : (i, m) ∈ (ofProductions p).closeItem k) :
    m ≤ p.terminals := by
  rcases mem_closeItem.mp h with ⟨-, rfl⟩ | ⟨v, w, -, -, -, -, -, rfl⟩
  · exact Nat.le_refl _
  · exact Nat.le_of_lt_succ (Nat.mod_lt _ (Nat.succ_pos _))

/-- **A closure has the initial items of what its items expect**, followed by what may follow. -/
theorem initial_mem_closeItem (hp : p.Proper) {k i : Item} {m x rule b : Nat}
    (h : (i, m) ∈ (ofProductions p).closeItem k) (hnext : i.next? p = some x)
    (hrule : rule ∈ p.rulesOf x) (hb : Follow p (i.advance.rest p) m b) :
    (⟨rule, 0⟩, b) ∈ (ofProductions p).closeItem k := by
  obtain ⟨hrlt, hleft⟩ := hp.mem_rulesOf.mp hrule
  have hx : p.terminals ≤ x := hleft ▸ hp.isNonterminal_leftOf hrlt
  have hxlt : x < p.byLeft.size := hleft ▸ hp.indexed.leftOf_lt hrlt
  have hle := hb.le (lookahead_le h)
  have hclosed : ∀ {v w : Nat}, v ∈ seeds p k → v < p.byLeft.size * (p.terminals + 1) →
      Leads (p.byLeft.size * (p.terminals + 1)) (ofProductions p).expand v w →
      w = (ofProductions p).code x b → (⟨rule, 0⟩, b) ∈ (ofProductions p).closeItem k := by
    rintro v w hv hlt hleads rfl
    refine mem_closeItem.mpr (Or.inr ⟨v, _, hv, hlt, hleads, ?_, rfl, (code_mod hle).symm⟩)
    rw [code_div hle]
    exact hrule
  rcases mem_closeItem.mp h with ⟨rfl, rfl⟩ | ⟨v, w, hv, hlt, hleads, hr, hdot, rfl⟩
  · exact hclosed (mem_seeds.mpr ⟨x, hnext, hx, b, hb, rfl⟩) (code_lt hxlt hle) .refl rfl
  · refine hclosed hv hlt (hleads.tail ⟨?_, code_lt hxlt hle⟩) rfl
    refine (mem_expand hp).mpr ⟨i.rule, hr, x, i.advance.rest p, ?_, hx, b, hb, rfl⟩
    rw [← Item.rest_of_next hnext, Item.rest, hdot]
    rfl

/-- The members of a closure are items of each state with the kernel item. -/
theorem of_mem_closeItem (hp : p.Proper) {k i : Item} {m : Nat}
    (h : (i, m) ∈ (ofProductions p).closeItem k) (hne : ¬ (i = k ∧ m = p.terminals)) :
    i.dot = 0 ∧ i.rule < p.rules ∧
      ∀ kernel : List Item, k ∈ kernel → i ∈ closure p kernel := by
  obtain ⟨v, w, hv, hlt, hleads, hrule, hdot, -⟩ := (mem_closeItem.mp h).resolve_left hne
  obtain ⟨x, hnext, hx, b, hb, rfl⟩ := mem_seeds.mp hv
  have hreached : ∀ {w : Nat}, Leads (p.byLeft.size * (p.terminals + 1)) (ofProductions p).expand
      ((ofProductions p).code x b) w → w / (p.terminals + 1) < p.symbols ∧
      ∀ kernel : List Item, k ∈ kernel → w / (p.terminals + 1) ∈ expansions p kernel := by
    intro w hleads
    induction hleads with
    | refl =>
      rw [code_div (hb.le (Nat.le_refl _))]
      refine ⟨(hp.right (Item.next_mem hnext)).2, fun kernel hk => ?_⟩
      exact mem_expansions_of_next hp (mem_closure.mpr (Or.inl hk)) hnext hx
    | @tail u w _ hstep ih =>
      obtain ⟨rule, hr, y, ys, hright, hy, d, hd, rfl⟩ := (mem_expand hp).mp hstep.1
      have hle := hd.le (Nat.le_of_lt_succ (Nat.mod_lt u (Nat.succ_pos p.terminals)))
      have hnext' : Item.next? p ⟨rule, 0⟩ = some y := by simp [Item.next?, hright]
      rw [code_div hle]
      refine ⟨(hp.right (Item.next_mem hnext')).2, fun kernel hk => ?_⟩
      have hmem : ⟨rule, 0⟩ ∈ closure p kernel :=
        mem_closure.mpr (Or.inr ⟨_, ih.2 kernel hk, hr, rfl⟩)
      exact mem_expansions_of_next hp hmem hnext' hy
  obtain ⟨hsymbol, hmem⟩ := hreached hleads
  refine ⟨hdot, hp.lt_rules hsymbol hrule, fun kernel hk => ?_⟩
  exact mem_closure.mpr (Or.inr ⟨_, hmem kernel hk, hrule, hdot⟩)

end Context

/-! ## 2. Numbers of kernel items -/

theorem foldl_offsets {α : Type} (len : α → Nat) (rows : List α) :
    ∀ (offsets : Array Nat) (n : Nat),
    (rows.foldl (fun (offsets, n) a => (offsets.push n, n + len a)) (offsets, n)).1
      = offsets ++ ((List.range rows.length).map fun i => n + rowOffset len rows i).toArray := by
  induction rows with
  | nil => intro offsets n; simp
  | cons a rest ih =>
    intro offsets n
    rw [List.foldl_cons, ih, List.length_cons, List.range_succ_eq_map, List.map_cons, List.map_map]
    apply Array.toList_inj.mp
    simp only [Array.toList_append, Array.toList_push, List.append_assoc, List.singleton_append]
    congr 2
    refine List.map_congr_left fun i _ => ?_
    rw [Function.comp_apply, Nat.succ_eq_add_one, rowOffset_cons_succ, Nat.add_assoc]

theorem foldl_count {α : Type} (len : α → Nat) (rows : List α) : ∀ n : Nat,
    rows.foldl (fun n a => n + len a) n = n + (rows.map len).sum := by
  induction rows with
  | nil => intro n; rfl
  | cons a rest ih =>
    intro n
    rw [List.foldl_cons, ih, List.map_cons, List.sum_cons, Nat.add_assoc]

section Numbers

variable {a : Automaton}

/-- The number of a kernel item, given by its state and its place in the kernel. -/
def kernelNumber (a : Automaton) (s j : Nat) : Nat := (kernelOffsets a).getD s 0 + j

/-- The number of items in the kernel of a state. -/
def kernelSize (st : ItemState) : Nat := st.kernel.length

theorem kernelOffsets_eq (a : Automaton) : kernelOffsets a =
    ((List.range a.states.size).map (rowOffset kernelSize a.states.toList)).toArray := by
  have h := foldl_offsets kernelSize a.states.toList #[] 0
  simp only [Nat.zero_add, Array.length_toList] at h
  rw [kernelOffsets, ← Array.foldl_toList]
  exact h.trans (Array.empty_append)

theorem kernelNumber_eq {s : Nat} {st : ItemState} (hs : a.states[s]? = some st) (j : Nat) :
    kernelNumber a s j = rowOffset kernelSize a.states.toList s + j := by
  obtain ⟨hlt, -⟩ := Array.getElem?_eq_some_iff.mp hs
  simp [kernelNumber, kernelOffsets_eq, Array.getD_eq_getD_getElem?, hlt]

theorem kernelCount_eq (a : Automaton) :
    kernelCount a = (a.states.toList.map kernelSize).sum := by
  have h := foldl_count kernelSize a.states.toList 0
  rw [Nat.zero_add] at h
  rw [kernelCount, ← Array.foldl_toList]
  exact h

theorem kernelNumber_lt {s j : Nat} {st : ItemState} {k : Item} (hs : a.states[s]? = some st)
    (hk : st.kernel[j]? = some k) : kernelNumber a s j < kernelCount a := by
  rw [kernelNumber_eq hs, kernelCount_eq]
  exact rowOffset_add_lt _ (by rwa [Array.getElem?_toList]) (List.getElem?_eq_some_iff.mp hk).1

/-- Different kernel items have different numbers. -/
theorem kernelNumber_inj {s s' j j' : Nat} {st st' : ItemState} {k k' : Item}
    (hs : a.states[s]? = some st) (hs' : a.states[s']? = some st') (hk : st.kernel[j]? = some k)
    (hk' : st'.kernel[j']? = some k') (h : kernelNumber a s j = kernelNumber a s' j') :
    s = s' ∧ j = j' := by
  rw [kernelNumber_eq hs, kernelNumber_eq hs'] at h
  exact rowOffset_inj kernelSize a.states.toList (by rwa [Array.getElem?_toList])
    (by rwa [Array.getElem?_toList]) (List.getElem?_eq_some_iff.mp hk).1
    (List.getElem?_eq_some_iff.mp hk').1 h

end Numbers

/-! ## 3. Flows -/

section Flows

variable (p : Productions) (a : Automaton)

/-- Where the closure of a kernel item of a state sends which lookaheads. -/
def flowsAt (st : ItemState) (k : Item) : List (Flow × Nat) :=
  ((Context.ofProductions p).closeItem k).filterMap fun (item, la) =>
    (flowOf? p a (kernelOffsets a) st item).map (·, la)

/-- The flows of all kernel items, by their numbers. -/
def allFlows : List (List (Flow × Nat)) :=
  (a.states.map (stateFlows (Context.ofProductions p) a (kernelOffsets a))).toList.flatten

theorem stateFlows_eq (st : ItemState) :
    stateFlows (Context.ofProductions p) a (kernelOffsets a) st = st.kernel.map (flowsAt p a st) :=
  rfl

theorem allFlows_eq :
    allFlows p a = a.states.toList.flatMap fun st => st.kernel.map (flowsAt p a st) := by
  rw [allFlows, Array.toList_map, List.flatMap_def]
  rfl

variable {p a}

theorem getElem?_allFlows {s j : Nat} {st : ItemState} {k : Item} (hs : a.states[s]? = some st)
    (hk : st.kernel[j]? = some k) :
    (allFlows p a)[kernelNumber a s j]? = some (flowsAt p a st k) := by
  rw [allFlows_eq, kernelNumber_eq hs]
  rw [getElem?_flatMap_rowOffset a.states.toList (fun st _ => by simp [kernelSize])
    (by rwa [Array.getElem?_toList]) (List.getElem?_eq_some_iff.mp hk).1]
  rw [List.getElem?_map, hk, Option.map_some]

theorem exists_of_mem_allFlows {flow : List (Flow × Nat)} (h : flow ∈ allFlows p a) :
    ∃ (s : Nat) (st : ItemState) (k : Item),
      a.states[s]? = some st ∧ k ∈ st.kernel ∧ flow = flowsAt p a st k := by
  rw [allFlows_eq] at h
  obtain ⟨st, hst, hflow⟩ := List.mem_flatMap.mp h
  obtain ⟨k, hk, rfl⟩ := List.mem_map.mp hflow
  obtain ⟨s, hs⟩ := List.mem_iff_getElem?.mp hst
  exact ⟨s, st, k, by rwa [Array.getElem?_toList] at hs, hk, rfl⟩

/-- A flow into a kernel item: the item with the dot moved over its next symbol. -/
theorem flowOf?_eq_kernel {st : ItemState} {i : Item} {id : Nat} :
    flowOf? p a (kernelOffsets a) st i = some (.kernel id) ↔
      ∃ x t st' j, i.next? p = some x ∧ st.goto? x = some t ∧ a.states[t]? = some st' ∧
        st'.kernel.findIdx? (· = i.advance) = some j ∧ id = kernelNumber a t j := by
  unfold flowOf? kernelNumber
  cases hnext : i.next? p with
  | none => simp
  | some x =>
    cases hgoto : st.goto? x with
    | none => simp [hgoto]
    | some t =>
      cases hst' : a.states[t]? with
      | none => simp [hgoto, hst']
      | some st' =>
        cases hj : st'.kernel.findIdx? (· = i.advance) with
        | none => simp [hgoto, hst', hj]
        | some j => simp [hgoto, hst', hj, eq_comm]

theorem flowOf?_eq_complete {st : ItemState} {i : Item} {rule : Nat} :
    flowOf? p a (kernelOffsets a) st i = some (.complete rule) ↔
      i.next? p = none ∧ i.rule = rule := by
  unfold flowOf?
  cases hnext : i.next? p with
  | none => simp
  | some x =>
    cases hgoto : st.goto? x with
    | none => simp [hgoto]
    | some t =>
      cases hst' : a.states[t]? with
      | none => simp [hgoto, hst']
      | some st' =>
        cases hj : st'.kernel.findIdx? (· = i.advance) with
        | none => simp [hgoto, hst', hj]
        | some j => simp [hgoto, hst', hj]

theorem mem_flowsAt {st : ItemState} {k : Item} {f : Flow} {m : Nat} :
    (f, m) ∈ flowsAt p a st k ↔ ∃ i, (i, m) ∈ (Context.ofProductions p).closeItem k ∧
      flowOf? p a (kernelOffsets a) st i = some f := by
  rw [flowsAt, List.mem_filterMap]
  constructor
  · rintro ⟨⟨i, la⟩, hi, hf⟩
    obtain ⟨f', hf', heq⟩ := Option.map_eq_some_iff.mp hf
    obtain ⟨rfl, rfl⟩ := Prod.mk.inj heq
    exact ⟨i, hi, hf'⟩
  · rintro ⟨i, hi, hf⟩
    exact ⟨(i, m), hi, by simp only [hf, Option.map_some]⟩

/-- The place of an item in a kernel. -/
theorem findIdx?_kernel {kernel : List Item} {i : Item} {j : Nat}
    (h : kernel.findIdx? (· = i) = some j) : kernel[j]? = some i := by
  obtain ⟨hlt, hi, -⟩ := List.findIdx?_eq_some_iff_getElem.mp h
  simp only [decide_eq_true_eq] at hi
  rw [List.getElem?_eq_getElem hlt, hi]

theorem exists_findIdx? {kernel : List Item} {i : Item} (h : i ∈ kernel) :
    ∃ j, kernel.findIdx? (· = i) = some j := by
  rw [← Option.isSome_iff_exists, List.findIdx?_isSome, List.any_eq_true]
  exact ⟨i, h, by simp⟩

end Flows

/-! ## 4. Lookaheads of kernel items -/

section Lookaheads

variable (p : Productions) (a : Automaton) (inputs : List Input)

/-- The numbers of the items of the starts, with what may follow the inputs. -/
def startNumbers : List (Nat × List Nat) :=
  (a.starts.zip (inputLookaheads p inputs)).map fun (s, las) => ((kernelOffsets a).getD s 0, las)

/-- The kernel items that the lookaheads of a kernel item flow into. -/
def linksAt (id : Nat) : List Nat := (linksOf (allFlows p a) p.terminals).getD id []

/-- The kernel items that a terminal is generated for. -/
def generatedFor (la : Nat) : List Nat :=
  (generatedAt (allFlows p a) p.terminals (startNumbers p a inputs)).getD la []

/-- The lookaheads of a kernel item. -/
def lookaheadsOf (id : Nat) : List Nat := (List.range p.terminals).filter fun la =>
  (((generatedAt (allFlows p a) p.terminals (startNumbers p a inputs)).map fun ids =>
    Graph.reach (kernelCount a) (linksAt p a) ids).getD la #[]).getD id false

variable {p a inputs}

theorem mem_linksAt {s j id : Nat} {st : ItemState} {k : Item} (hs : a.states[s]? = some st)
    (hk : st.kernel[j]? = some k) : id ∈ linksAt p a (kernelNumber a s j) ↔
      (.kernel id, p.terminals) ∈ flowsAt p a st k := by
  rw [linksAt, linksOf, Array.getD_eq_getD_getElem?, List.getElem?_toArray, List.getElem?_map,
    getElem?_allFlows hs hk, Option.map_some, Option.getD_some, List.mem_filterMap]
  constructor
  · rintro ⟨⟨f, la⟩, hmem, hf⟩
    cases f with
    | complete rule => cases hf
    | kernel id' =>
      simp only [Option.ite_none_right_eq_some, Option.some.injEq] at hf
      rw [← hf.1, ← hf.2]
      exact hmem
  · intro h
    exact ⟨_, h, by simp⟩

/-- A flow as a terminal that is generated for a kernel item. -/
def generates (e : Flow × Nat) : Option (Nat × Nat) :=
  match e.1 with
  | .kernel id => some (e.2, id)
  | .complete _ => none

theorem generatedAt_eq (flows : List (List (Flow × Nat))) (terminals : Nat)
    (starts : List (Nat × List Nat)) : generatedAt flows terminals starts =
      flows.foldl (fun acc flow => flow.foldl (gather generates) acc)
        (starts.foldl (fun acc e => e.2.foldl (gather fun la => some (la, e.1)) acc)
          (Array.replicate terminals [])) := by
  refine List.foldl_ext _ _ _ fun acc flow _ => List.foldl_ext _ _ _ fun acc e _ => ?_
  obtain ⟨f, la⟩ := e
  cases f <;> rfl

theorem collects_starts (la id : Nat) :
    Collects (fun acc (e : Nat × List Nat) => e.2.foldl (gather fun la => some (la, e.1)) acc) la id
      fun e => la ∈ e.2 ∧ e.1 = id := by
  have hgather : ∀ e : Nat × List Nat, Collects (gather fun la => some (la, e.1)) la id _ :=
    fun e => collects_gather _ la id
  refine ⟨fun acc e => (hgather e).foldl.size acc e.2, fun acc e => ?_⟩
  refine ((hgather e).foldl.mem acc e.2).trans (or_congr_right (and_congr_right fun _ => ?_))
  constructor
  · rintro ⟨la', hla', h⟩
    obtain ⟨rfl, rfl⟩ := Prod.mk.inj (Option.some.inj h)
    exact ⟨hla', rfl⟩
  · rintro ⟨hla, rfl⟩
    exact ⟨la, hla, rfl⟩

theorem mem_generatedFor {la id : Nat} : id ∈ generatedFor p a inputs la ↔ la < p.terminals ∧
    ((∃ e ∈ startNumbers p a inputs, la ∈ e.2 ∧ e.1 = id) ∨
      ∃ flow ∈ allFlows p a, (.kernel id, la) ∈ flow) := by
  have hflow : ∀ e : Flow × Nat, generates e = some (la, id) ↔ e = (.kernel id, la) := by
    rintro ⟨f, m⟩
    cases f with
    | kernel id' => simp [generates, and_comm]
    | complete rule => simp [generates]
  rw [generatedFor, generatedAt_eq]
  refine ((collects_gather generates la id).foldl.foldl.mem _ _).trans ?_
  rw [(collects_starts la id).foldl.size, (collects_starts la id).foldl.mem_replicate,
    Array.size_replicate, ← and_or_left]
  simp only [hflow, exists_eq_right]

theorem size_generatedAt (p : Productions) (a : Automaton) (inputs : List Input) :
    (generatedAt (allFlows p a) p.terminals (startNumbers p a inputs)).size = p.terminals := by
  rw [generatedAt_eq, (collects_gather generates 0 0).foldl.foldl.size,
    (collects_starts 0 0).foldl.size, Array.size_replicate]

/-- **The lookaheads of a kernel item are what reaches it along the links.** -/
theorem mem_lookaheadsOf {la id : Nat} : la ∈ lookaheadsOf p a inputs id ↔
    ∃ v ∈ generatedFor p a inputs la, v < kernelCount a ∧
      Leads (kernelCount a) (linksAt p a) v id := by
  have hmarks : la < p.terminals →
      ((generatedAt (allFlows p a) p.terminals (startNumbers p a inputs)).map fun ids =>
        Graph.reach (kernelCount a) (linksAt p a) ids).getD la #[]
      = Graph.reach (kernelCount a) (linksAt p a) (generatedFor p a inputs la) := by
    intro hlt
    have hget := Array.getElem?_eq_getElem ((size_generatedAt p a inputs).symm ▸ hlt)
    rw [generatedFor, Array.getD_eq_getD_getElem?, Array.getD_eq_getD_getElem?,
      Array.getElem?_map, hget]
    rfl
  rw [lookaheadsOf, List.mem_filter, List.mem_range]
  constructor
  · rintro ⟨hlt, hmark⟩
    rw [hmarks hlt, ← Graph.marked_iff_getD] at hmark
    exact Graph.reach_iff.mp hmark
  · rintro ⟨v, hv, hrest⟩
    have hlt := (mem_generatedFor.mp hv).1
    refine ⟨hlt, ?_⟩
    rw [hmarks hlt, ← Graph.marked_iff_getD]
    exact Graph.reach_iff.mpr ⟨v, hv, hrest⟩

theorem lt_of_mem_lookaheadsOf {la id : Nat} (h : la ∈ lookaheadsOf p a inputs id) :
    la < p.terminals :=
  List.mem_range.mp (List.mem_filter.mp h).1

end Lookaheads

end GrammarTables.Lr
