import GrammarTables.Proofs.Lr.Lookahead
/-
# Items that are viable

After a sequence of symbols has been recognised, an item is viable before a sequence of terminals
if a parse that expects it there can end well (`Viable`).  The state that the automaton reaches has
every viable item, followed by the first of the terminals (`Viable.ahead`), and whoever expects a
symbol to be recognised next is viable too, one symbol back (`Viable.exists_next`).

The other way around, what a state contains tells which symbols have been recognised
(`Path.of_item`).
-/

namespace GrammarTables.Lr

variable {p : Productions} {a : Automaton} {inputs : List Input}

/-! ## 1. Paths -/

/-- The automaton reads a sequence of symbols, the last one first, from one state to another. -/
inductive Path (a : Automaton) (start : Nat) : List Nat → Nat → Prop
  | nil : Path a start [] start
  | cons {σ : List Nat} {s t x : Nat} {st : ItemState} : Path a start σ s →
      a.states[s]? = some st → st.goto? x = some t → Path a start (x :: σ) t

theorem Path.exists_state (ha : a.Proper p) {i start s : Nat} {σ : List Nat}
    (hstart : a.starts[i]? = some start) (h : Path a start σ s) :
    ∃ st, a.states[s]? = some st := by
  cases h with
  | nil =>
    obtain ⟨st, hst, -⟩ := ha.starts hstart
    exact ⟨st, hst⟩
  | cons _ hs hgoto =>
    obtain ⟨st', hst', -⟩ := ha.goto hs hgoto
    exact ⟨st', hst'⟩

/-- **An item of a state says what was read last**, and the item of an input what was read at
all. -/
theorem Path.of_item (hp : p.Proper) (ha : a.Proper p) {i start s : Nat} {σ : List Nat}
    (hstart : a.starts[i]? = some start) (h : Path a start σ s) {st : ItemState}
    (hs : a.states[s]? = some st) {item : Item} (hitem : item ∈ st.items) :
    item.dot ≤ σ.length ∧ (σ.take item.dot).reverse = (p.rightOf item.rule).take item.dot ∧
      (p.rules ≤ item.rule → item.rule = p.rules + i ∧ σ.length = item.dot) := by
  -- an item outside the kernel has its dot in front, so only kernels matter
  have hinitial : ∀ {σ : List Nat} {st : ItemState} {s : Nat} {item : Item},
      a.states[s]? = some st → item ∈ st.items → item ∉ st.kernel →
      item.dot ≤ σ.length ∧ (σ.take item.dot).reverse = (p.rightOf item.rule).take item.dot ∧
        (p.rules ≤ item.rule → item.rule = p.rules + i ∧ σ.length = item.dot) := by
    intro σ st s item hs hitem hkernel
    rw [ha.items hs] at hitem
    obtain ⟨hdot, hrule, -⟩ := of_mem_closure hp hitem hkernel
    rw [hdot]
    exact ⟨Nat.zero_le _, rfl, fun h => absurd hrule (Nat.not_lt.mpr h)⟩
  induction h generalizing st item with
  | nil =>
    by_cases hkernel : item ∈ st.kernel
    · obtain ⟨st', hst', heq⟩ := ha.starts hstart
      obtain rfl := Option.some.inj (hs.symm.trans hst')
      rw [heq] at hkernel
      obtain rfl := List.mem_singleton.mp hkernel
      exact ⟨Nat.le_refl 0, rfl, fun _ => ⟨rfl, rfl⟩⟩
    · exact hinitial hs hitem hkernel
  | @cons σ u s x stu _ hu hgoto ih =>
    by_cases hkernel : item ∈ st.kernel
    · obtain ⟨st', hst', hmem⟩ := ha.goto hu hgoto
      obtain rfl := Option.some.inj (hs.symm.trans hst')
      obtain ⟨j, hj, hnext, rfl⟩ := (hmem item).mp hkernel
      obtain ⟨hle, htake, hinput⟩ := ih hu hj
      refine ⟨Nat.succ_le_succ hle, ?_, fun h => ?_⟩
      · calc ((x :: σ).take (j.dot + 1)).reverse = (σ.take j.dot).reverse ++ [x] := by simp
          _ = (p.rightOf j.rule).take j.dot ++ [x] := by rw [htake]
          _ = (p.rightOf j.rule).take (j.dot + 1) := by
            rw [List.take_add_one, show (p.rightOf j.rule)[j.dot]? = some x from hnext]
            rfl
      · obtain ⟨hrule, hlength⟩ := hinput h
        exact ⟨hrule, by simp only [List.length_cons, hlength, Item.advance]⟩
    · exact hinitial hs hitem hkernel

/-- What was read last when a production is complete is its right side. -/
theorem Path.of_complete (hp : p.Proper) (ha : a.Proper p) {i start s : Nat} {σ : List Nat}
    (hstart : a.starts[i]? = some start) (h : Path a start σ s) {st : ItemState}
    (hs : a.states[s]? = some st) {item : Item} (hitem : item ∈ st.items)
    (hnext : item.next? p = none) :
    (p.rightOf item.rule).length ≤ σ.length ∧
      (σ.take (p.rightOf item.rule).length).reverse = p.rightOf item.rule ∧
      (p.rules ≤ item.rule →
        item.rule = p.rules + i ∧ σ.length = (p.rightOf item.rule).length) := by
  have hvalid := valid_of_mem_closure hp (ha.kernel hs).2 item (ha.items hs ▸ hitem)
  have hdot : item.dot = (p.rightOf item.rule).length :=
    Nat.le_antisymm hvalid.2 (List.getElem?_eq_none_iff.mp hnext)
  have h := h.of_item hp ha hstart hs hitem
  rw [hdot, List.take_length] at h
  exact h

/-- **The state below the right side of a rule goes on with its left side**: something there
expects it. -/
theorem Path.exists_goto (hp : p.Proper) (ha : a.Proper p) {i start s : Nat} {σ : List Nat}
    (hstart : a.starts[i]? = some start) (h : Path a start σ s) {st : ItemState}
    (hs : a.states[s]? = some st) {item : Item} (hitem : item ∈ st.items)
    (hrule : item.rule < p.rules) : ∃ s₀ st₀ u, Path a start (σ.drop item.dot) s₀ ∧
      a.states[s₀]? = some st₀ ∧ st₀.goto? (p.leftOf item.rule) = some u := by
  -- an item outside the kernel is expected by another one of the same state
  have hinitial : ∀ {σ : List Nat} {s : Nat} {st : ItemState} {item : Item}, Path a start σ s →
      a.states[s]? = some st → item ∈ st.items → item ∉ st.kernel →
      ∃ s₀ st₀ u, Path a start (σ.drop item.dot) s₀ ∧ a.states[s₀]? = some st₀ ∧
        st₀.goto? (p.leftOf item.rule) = some u := by
    intro σ s st item hpath hs hitem hkernel
    rw [ha.items hs] at hitem
    obtain ⟨hdot, -, j, hj, hnext⟩ := of_mem_closure hp hitem hkernel
    obtain ⟨u, hu⟩ := ha.exists_goto hs (ha.items hs ▸ hj) hnext
    rw [hdot, List.drop_zero]
    exact ⟨s, st, u, hpath, hs, hu⟩
  induction h generalizing st item with
  | nil =>
    by_cases hkernel : item ∈ st.kernel
    · obtain ⟨st', hst', heq⟩ := ha.starts hstart
      obtain rfl := Option.some.inj (hs.symm.trans hst')
      rw [heq] at hkernel
      obtain rfl := List.mem_singleton.mp hkernel
      exact absurd hrule (Nat.not_lt.mpr (Nat.le_add_right _ _))
    · exact hinitial .nil hs hitem hkernel
  | cons hpath hu hgoto ih =>
    by_cases hkernel : item ∈ st.kernel
    · obtain ⟨st', hst', hmem⟩ := ha.goto hu hgoto
      obtain rfl := Option.some.inj (hs.symm.trans hst')
      obtain ⟨j, hj, -, rfl⟩ := (hmem item).mp hkernel
      exact ih hu hj hrule
    · exact hinitial (.cons hpath hu hgoto) hs hitem hkernel

/-! ## 2. Viable items -/

/-- **An item is viable** after a sequence of symbols, the last one first, if a parse of the
production `start` up to the terminal `e` may expect it there, followed by some terminals. -/
inductive Viable (p : Productions) (start e : Nat) : List Nat → Item → List Nat → Prop
  | start : Viable p start e [] ⟨start, 0⟩ [e]
  | goto {σ r : List Nat} {i : Item} {x : Nat} : Viable p start e σ i r → i.next? p = some x →
      Viable p start e (x :: σ) i.advance r
  | close {σ r z : List Nat} {i : Item} {x rule : Nat} : Viable p start e σ i r →
      i.next? p = some x → rule ∈ p.rulesOf x → p.Yields (i.advance.rest p) z →
      Viable p start e σ ⟨rule, 0⟩ (z ++ r)

namespace Viable

variable {start e : Nat} {σ r : List Nat} {i : Item}

/-- The dot moves over several symbols. -/
theorem advance (h : Viable p start e σ i r) {xs ys : List Nat} (hrest : i.rest p = xs ++ ys) :
    Viable p start e (xs.reverse ++ σ) ⟨i.rule, i.dot + xs.length⟩ r := by
  induction xs generalizing σ i with
  | nil => exact h
  | cons x xs ih =>
    obtain ⟨hnext, hrest'⟩ := Item.next_of_rest hrest
    have := ih (h.goto hnext) hrest'
    simpa [Item.advance, Nat.add_assoc, Nat.add_comm 1] using this

/-- The dot moves to the end. -/
theorem complete {rule : Nat} (h : Viable p start e σ ⟨rule, 0⟩ r) :
    Viable p start e ((p.rightOf rule).reverse ++ σ) ⟨rule, (p.rightOf rule).length⟩ r := by
  have hrest : (⟨rule, 0⟩ : Item).rest p = p.rightOf rule ++ [] := (List.append_nil _).symm
  have hcomplete := h.advance hrest
  rwa [Nat.zero_add] at hcomplete

/-- **The state after the symbols has every viable item, followed by the first terminal.** -/
theorem ahead (hp : p.Proper) (ha : a.Proper p) {n s₀ : Nat} (hstart : a.starts[n]? = some s₀)
    (he : MayFollow p inputs n e) (h : Viable p (p.rules + n) e σ i r) :
    ∀ {s : Nat}, Path a s₀ σ s → ∃ b w, r = b :: w ∧ Ahead p a inputs s i b := by
  induction h with
  | start =>
    intro s hpath
    cases hpath
    exact ⟨e, [], rfl, Ahead.start ha hstart he⟩
  | goto _ hnext ih =>
    intro s hpath
    cases hpath with
    | cons hpath hs hgoto =>
      obtain ⟨b, w, rfl, hahead⟩ := ih hpath
      exact ⟨b, w, rfl, hahead.goto hp ha hnext hs hgoto⟩
  | @close σ r z i x rule _ hnext hrule hz ih =>
    intro s hpath
    obtain ⟨b, w, rfl, hahead⟩ := ih hpath
    cases z with
    | nil =>
      have hnull := FirstSets.isNullable_of_yields hp hz
      exact ⟨b, w, rfl, hahead.close hp hnext hrule (Or.inr ⟨hnull, rfl⟩)⟩
    | cons c z =>
      have hfirst := FirstSets.mem_ofSeq_of_yields hp hz
      exact ⟨c, z ++ b :: w, rfl, hahead.close hp hnext hrule (Or.inl hfirst)⟩

/-- **Something expected the last symbol.**  If the rest of a viable item can be completed, so can
that of a viable item that expects the last symbol, before the same terminals. -/
theorem exists_next {x : Nat} {z : List Nat} (h : Viable p start e (x :: σ) i r)
    (hz : p.Yields (i.rest p) z) : ∃ j r' z', Viable p start e σ j r' ∧ j.next? p = some x ∧
      p.Yields (j.advance.rest p) z' ∧ z' ++ r' = z ++ r := by
  generalize hτ : x :: σ = τ at h
  induction h generalizing z with
  | start => cases hτ
  | @goto σ' r i y h hnext _ =>
    obtain ⟨rfl, rfl⟩ := List.cons.inj hτ
    exact ⟨i, r, z, h, hnext, hz, rfl⟩
  | @close σ' r z₀ i y rule h hnext hrule hz₀ ih =>
    have hrest : p.Yields (i.rest p) (z ++ z₀) := by
      rw [Item.rest_of_next hnext]
      exact .rule hrule hz hz₀
    obtain ⟨j, r', z', hj, hjnext, hz', heq⟩ := ih hrest hτ
    exact ⟨j, r', z', hj, hjnext, hz', heq.trans (List.append_assoc z z₀ r)⟩

end Viable

end GrammarTables.Lr
