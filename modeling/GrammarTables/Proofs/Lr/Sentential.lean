import GrammarTables.Proofs.Lr.Derivation
import GrammarTables.Proofs.Lr.Rewriting
import GrammarTables.Proofs.Lr.Table
import GrammarTables.Proofs.Lr.Viable
/-
# What was read begins a sentential form

An item is valid after a sequence of symbols if the target of an input derives a sequence that
begins with them and goes on with the rest of the item (`Item.ValidAfter`).  Every item of the state
that the automaton reaches is valid after the symbols read (`Path.validAfter`), so these symbols
begin something that the target derives (`Path.exists_derives`).  No lookahead takes part in this.
-/

namespace GrammarTables

/-! ## 1. Derivations in a context -/

namespace Grammar

variable {g : Grammar} {u u' v v' : List Nat}

theorem contextual_rewrites (g : Grammar) : Lr.Contextual g.Rewrites := by
  rintro _ _ ⟨u, v, hr⟩ x y
  have hrule := Rewrites.rule (x ++ u) (v ++ y) hr
  simpa only [List.append_assoc, List.cons_append] using hrule

theorem Derives.between (h : g.Derives u v) (x y : List Nat) :
    g.Derives (x ++ u ++ y) (x ++ v ++ y) :=
  (contextual_rewrites g).between h x y

theorem Derives.append (h : g.Derives u u') (h' : g.Derives v v') :
    g.Derives (u ++ v) (u' ++ v') :=
  (contextual_rewrites g).append h h'

/-- Symbols of the grammar derive symbols of the grammar. -/
theorem Derives.lt_grammarSymbols (hg : g.WellFormed) (h : g.Derives u v)
    (hu : ∀ x ∈ u, x < g.grammarSymbols) : ∀ x ∈ v, x < g.grammarSymbols := by
  induction h with
  | refl => exact hu
  | tail _ hstep ih =>
    obtain ⟨x, y, hr⟩ := hstep
    intro z hz
    rcases List.mem_append.mp hz with hz | hz
    · exact ih z (List.mem_append_left _ hz)
    · rcases List.mem_append.mp hz with hz | hz
      · obtain ⟨s, hs, rfl⟩ := List.mem_map.mp hz
        exact (hg.right _ hr s hs).2
      · exact ih z (List.mem_append_right _ (List.mem_cons_of_mem _ hz))

end Grammar

namespace Lr

/-- The left side of a rule is replaced by its right side. -/
theorem rewrites_production {g : Grammar} {rule : Nat} (h : rule < g.ruleList.length) :
    g.Rewrites [(Productions.ofGrammar g).leftOf rule]
      ((Productions.ofGrammar g).rightOf rule) := by
  have hr : g.ruleList[rule]? = some _ := List.getElem?_eq_getElem h
  rw [Productions.leftOf_rule g hr, Productions.rightOf_rule g hr]
  simpa using Grammar.Rewrites.rule [] [] (List.mem_of_getElem? hr)

/-- What grows is derived. -/
theorem Grows.derives {g : Grammar} (hg : g.WellFormed) {xs w : List Nat} {ds : List Shape}
    (h : Grows (.ofGrammar g) xs ds w) (hxs : ∀ x ∈ xs, x < g.grammarSymbols) :
    g.Derives xs w := by
  have hp := Productions.proper_ofGrammar hg
  induction h with
  | nil => exact .refl
  | @terminal a xs w ds _ _ ih =>
    exact Grammar.Derives.append (u := [a]) .refl (ih fun x hx => hxs x (List.mem_cons_of_mem a hx))
  | @rule rule x xs u v children ds hrule _ _ ih₁ ih₂ =>
    have hlt := hp.lt_rules (hxs x (List.mem_cons_self ..)) hrule
    obtain ⟨-, rfl⟩ := hp.mem_rulesOf.mp hrule
    exact Grammar.Derives.append
      ((Relation.ReflTransGen.single (rewrites_production hlt)).trans
        (ih₁ fun y hy => (hp.right hy).2))
      (ih₂ fun y hy => hxs y (List.mem_cons_of_mem _ hy))

/-! ## 2. Valid items -/

variable {p : Productions}

/-- **What holds of a kernel and is passed on to the rules that an item expects holds of the
closure.** -/
theorem closure_induction (hp : p.Proper) {kernel : List Item} {P : Item → Prop}
    (hkernel : ∀ i ∈ kernel, P i)
    (hexpected : ∀ {i : Item} {rule : Nat}, P i → rule < p.rules →
      i.next? p = some (p.leftOf rule) → P ⟨rule, 0⟩) :
    ∀ i ∈ closure p kernel, P i := by
  have hrules : ∀ {i : Item} {x rule : Nat}, P i → i.next? p = some x → rule ∈ p.rulesOf x →
      P ⟨rule, 0⟩ := by
    intro i x rule hi hnext hrule
    have hlt := hp.lt_rules (hp.right (Item.next_mem hnext)).2 hrule
    exact hexpected hi hlt ((hp.mem_rulesOf.mp hrule).2.symm ▸ hnext)
  have hfound := (explores_expansions hp kernel).found
    (P := fun x => ∀ rule ∈ p.rulesOf x, P ⟨rule, 0⟩) ?_ ?_
  · intro i hi
    rcases mem_closure.mp hi with hi | ⟨x, hx, hrule, hdot⟩
    · exact hkernel i hi
    · have hzero : ⟨i.rule, 0⟩ = i := Item.eq_of_eq rfl hdot.symm
      exact hzero ▸ hfound x (Array.mem_toList_iff.mp hx) i.rule hrule
  · intro x hx rule hrule
    obtain ⟨i, hi, hnext, -⟩ := mem_expected.mp hx
    exact hrules (hkernel i hi) hnext hrule
  · intro y hy e he rule hrule
    obtain ⟨x, hx, rfl⟩ := List.mem_map.mp he
    obtain ⟨i, hi, hnext, -⟩ := mem_expected.mp hx
    obtain ⟨hi, hdot⟩ := mem_initialItems.mp hi
    have hzero : ⟨i.rule, 0⟩ = i := Item.eq_of_eq rfl hdot.symm
    exact hrules (hzero ▸ hy i.rule hi) hnext hrule

section Grammar

variable {g : Grammar}

/-- **An item is valid after some symbols**: they end with what stands before the dot, and the target
derives them followed by what stands after the dot. -/
def Item.ValidAfter (g : Grammar) (target : Nat) (γ : List Nat) (i : Item) : Prop :=
  ∃ δ β, γ = δ ++ ((Productions.ofGrammar g).rightOf i.rule).take i.dot ∧
    g.Derives [target] (δ ++ (Productions.ofGrammar g).rightOf i.rule ++ β)

namespace Item.ValidAfter

variable {target : Nat} {γ : List Nat} {i : Item}

/-- Reading the symbol after the dot. -/
theorem advance (h : i.ValidAfter g target γ) {x : Nat}
    (hnext : i.next? (.ofGrammar g) = some x) : i.advance.ValidAfter g target (γ ++ [x]) := by
  obtain ⟨δ, β, rfl, hderives⟩ := h
  refine ⟨δ, β, ?_, hderives⟩
  rw [Item.advance, List.take_add_one,
    show ((Productions.ofGrammar g).rightOf i.rule)[i.dot]? = some x from hnext, Option.toList_some,
    List.append_assoc]

/-- Expecting a rule of the symbol after the dot. -/
theorem expected (h : i.ValidAfter g target γ) {rule : Nat} (hrule : rule < g.ruleList.length)
    (hnext : i.next? (.ofGrammar g) = some ((Productions.ofGrammar g).leftOf rule)) :
    (⟨rule, 0⟩ : Item).ValidAfter g target γ := by
  obtain ⟨δ, β, rfl, hderives⟩ := h
  have hr : g.ruleList[rule]? = some _ := List.getElem?_eq_getElem hrule
  have hsplit : (Productions.ofGrammar g).rightOf i.rule =
      ((Productions.ofGrammar g).rightOf i.rule).take i.dot ++
        (Productions.ofGrammar g).leftOf rule :: i.advance.rest (.ofGrammar g) := by
    rw [← Item.rest_of_next hnext, Item.rest, List.take_append_drop]
  rw [hsplit, Productions.leftOf_rule g hr] at hderives
  refine ⟨_, i.advance.rest (.ofGrammar g) ++ β, (List.append_nil _).symm, hderives.tail ?_⟩
  rw [Productions.rightOf_rule g hr]
  simpa using Grammar.Rewrites.rule
    (δ ++ ((Productions.ofGrammar g).rightOf i.rule).take i.dot)
    (i.advance.rest (.ofGrammar g) ++ β) (List.mem_of_getElem? hr)

/-- What was read begins something that the target derives. -/
theorem exists_derives (h : i.ValidAfter g target γ) : ∃ β, g.Derives [target] (γ ++ β) := by
  obtain ⟨δ, β, rfl, hderives⟩ := h
  refine ⟨((Productions.ofGrammar g).rightOf i.rule).drop i.dot ++ β, ?_⟩
  rw [← List.append_assoc, List.append_assoc δ, List.take_append_drop]
  exact hderives

end Item.ValidAfter

/-- **The items of a state are valid after what was read.** -/
theorem Path.validAfter (hg : g.WellFormed) {n start s : Nat} {input : Input} {σ : List Nat}
    (hstart : (automatonOf g).starts[n]? = some start) (hinput : g.inputList[n]? = some input)
    (h : Path (automatonOf g) start σ s) {st : ItemState}
    (hs : (automatonOf g).states[s]? = some st) :
    ∀ i ∈ st.items, i.ValidAfter g input.target σ.reverse := by
  have hp := Productions.proper_ofGrammar hg
  have ha : (automatonOf g).Proper (.ofGrammar g) := Automaton.proper_ofProductions hp
  -- the closure passes validity on, so only kernels matter
  have hclosure : ∀ {γ : List Nat} {s : Nat} {st : ItemState}, (automatonOf g).states[s]? = some st →
      (∀ i ∈ st.kernel, i.ValidAfter g input.target γ) →
      ∀ i ∈ st.items, i.ValidAfter g input.target γ := by
    intro γ s st hs hkernel
    rw [ha.items hs]
    exact closure_induction hp hkernel fun hi hrule hnext => hi.expected hrule hnext
  induction h generalizing st with
  | nil =>
    refine hclosure hs fun i hi => ?_
    obtain ⟨st', hst', hkernel⟩ := ha.starts hstart
    obtain rfl := Option.some.inj (hs.symm.trans hst')
    rw [hkernel] at hi
    obtain rfl := List.mem_singleton.mp hi
    refine ⟨[], [], rfl, ?_⟩
    rw [show (Productions.ofGrammar g).rules = g.ruleList.length from rfl,
      Productions.rightOf_input g hinput]
    exact .refl
  | cons _ hu hgoto ih =>
    refine hclosure hs fun i hi => ?_
    obtain ⟨st', hst', hmem⟩ := ha.goto hu hgoto
    obtain rfl := Option.some.inj (hs.symm.trans hst')
    obtain ⟨j, hj, hnext, rfl⟩ := (hmem i).mp hi
    rw [List.reverse_cons]
    exact (ih hu j hj).advance hnext

/-- **What was read begins something that the target derives.** -/
theorem Path.exists_derives (hg : g.WellFormed) {n start s : Nat} {input : Input} {σ : List Nat}
    (hstart : (automatonOf g).starts[n]? = some start) (hinput : g.inputList[n]? = some input)
    (h : Path (automatonOf g) start σ s) : ∃ β, g.Derives [input.target] (σ.reverse ++ β) := by
  have ha : (automatonOf g).Proper (.ofGrammar g) :=
    Automaton.proper_ofProductions (Productions.proper_ofGrammar hg)
  cases h with
  | nil => exact ⟨[input.target], .refl⟩
  | cons hpath hs hgoto =>
    obtain ⟨i, hi, hnext⟩ := ha.goto_next hs hgoto
    rw [List.reverse_cons]
    exact ((hpath.validAfter hg hstart hinput hs i hi).advance hnext).exists_derives

end Grammar

end Lr

end GrammarTables
