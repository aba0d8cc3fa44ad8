import GrammarTables.Proofs.Lr.Derivation
import GrammarTables.Proofs.Lr.Table
import GrammarTables.Proofs.Lr.Viable
/-
# Moves of the automaton

The automaton as a machine on symbols: it shifts the next terminal, or it reduces a rule that is
complete before it (`Move`).  For every derivation of an input there are moves that build its tree
(`Grows.moves`).  Where the automaton leaves no choice there is at most one move, so there is at
most one tree (`Settled.shape_unique`).
-/

namespace GrammarTables.Lr

variable {p : Productions} {a : Automaton} {inputs : List Input}

/-! ## 1. Moves -/

/-- The symbol at the root of a shape. -/
def Shape.root (p : Productions) : Shape → Nat
  | .leaf symbol => symbol
  | .branch rule _ => p.leftOf rule

/-- The symbols at the roots of some shapes. -/
def roots (p : Productions) (stack : List Shape) : List Nat := stack.map (Shape.root p)

/-- **A move of the automaton** on a stack of shapes, the top first, and the terminals to come. -/
inductive Move (p : Productions) (a : Automaton) (inputs : List Input) (start : Nat) :
    List Shape × List Nat → List Shape × List Nat → Prop
  | shift {stack : List Shape} {rest : List Nat} {x s u : Nat} {st : ItemState} :
      Path a start (roots p stack) s → a.states[s]? = some st → x < p.terminals →
      st.goto? x = some u → Move p a inputs start (stack, x :: rest) (.leaf x :: stack, rest)
  | reduce {stack children below : List Shape} {rest : List Nat} {b rule s next : Nat} :
      Path a start (roots p stack) s → Completes p a inputs s b rule → rule < p.rules →
      stack = children.reverse ++ below → children.length = (p.rightOf rule).length →
      Path a start (p.leftOf rule :: roots p below) next →
      Move p a inputs start (stack, b :: rest) (.branch rule children :: below, b :: rest)

theorem Path.unique {start s s' : Nat} {σ : List Nat} (h : Path a start σ s)
    (h' : Path a start σ s') : s = s' := by
  induction h generalizing s' with
  | nil =>
    cases h'
    rfl
  | cons _ hs hgoto ih =>
    cases h' with
    | cons hpath' hs' hgoto' =>
      obtain rfl := ih hpath'
      obtain rfl := Option.some.inj (hs.symm.trans hs')
      exact Option.some.inj (hgoto.symm.trans hgoto')

/-- **Where the automaton leaves no choice there is at most one move.** -/
theorem Settled.move_unique (h : Settled p a inputs) (start : Nat) :
    Relator.RightUnique (Move p a inputs start) := by
  intro c c₁ c₂ h₁ h₂
  cases h₁ with
  | shift hpath hs _ hgoto =>
    cases h₂ with
    | shift => rfl
    | reduce hpath' hcompletes hrule _ _ _ =>
      obtain rfl := hpath.unique hpath'
      exact absurd (hgoto.symm.trans (h.goto hs hcompletes hrule)) (by simp)
  | reduce hpath hcompletes hrule hstack hlength _ =>
    cases h₂ with
    | shift hpath' hs' _ hgoto' =>
      obtain rfl := hpath.unique hpath'
      exact absurd (hgoto'.symm.trans (h.goto hs' hcompletes hrule)) (by simp)
    | reduce hpath' hcompletes' _ hstack' hlength' _ =>
      obtain rfl := hpath.unique hpath'
      obtain rfl := h.unique hcompletes hcompletes'
      obtain ⟨hchildren, rfl⟩ := List.append_inj (hstack.symm.trans hstack')
        (by rw [List.length_reverse, List.length_reverse, hlength, hlength'])
      rw [List.reverse_injective hchildren]

/-! ## 2. Moves along a derivation -/

section Derivation

variable {n e start : Nat}

/-- **The automaton moves along a derivation.**  Where an item is viable and what it still expects
grows into `ds`, the shapes `ds` get on the stack. -/
theorem Grows.moves (hp : p.Proper) (ha : a.Proper p) (hstart : a.starts[n]? = some start)
    (he : MayFollow p inputs n e) {xs w : List Nat} {ds : List Shape} (h : Grows p xs ds w) :
    ∀ {stack : List Shape} {i : Item} {r : List Nat} {s : Nat},
      Path a start (roots p stack) s → Viable p (p.rules + n) e (roots p stack) i r →
      i.rest p = xs →
      Relation.ReflTransGen (Move p a inputs start) (stack, w ++ r) (ds.reverse ++ stack, r) ∧
        (∃ t, Path a start (roots p (ds.reverse ++ stack)) t) ∧
        Viable p (p.rules + n) e (roots p (ds.reverse ++ stack)) ⟨i.rule, i.dot + xs.length⟩ r := by
  induction h with
  | nil =>
    intro stack i r s hpath hviable hrest
    exact ⟨.refl, ⟨s, hpath⟩, hviable⟩
  | @terminal x xs w ds hx _ ih =>
    intro stack i r s hpath hviable hrest
    obtain ⟨hnext, hrest'⟩ := Item.next_of_rest hrest
    obtain ⟨b, z, -, hahead⟩ := hviable.ahead hp ha hstart he hpath
    obtain ⟨st, hs⟩ := hahead.exists_state
    obtain ⟨u, hgoto⟩ := ha.exists_goto hs (hahead.mem_items hp ha hs) hnext
    have hpath₁ : Path a start (roots p (.leaf x :: stack)) u := .cons hpath hs hgoto
    obtain ⟨hmoves, hpath', hviable'⟩ := ih hpath₁ (hviable.goto hnext) hrest'
    rw [List.reverse_cons, List.append_assoc, List.length_cons, Nat.add_comm xs.length,
      ← Nat.add_assoc]
    exact ⟨.head (.shift hpath hs hx hgoto) hmoves, hpath', hviable'⟩
  | @rule rule x xs u v children ds hrule hchildren hv ih₁ ih₂ =>
    intro stack i r s hpath hviable hrest
    obtain ⟨hnext, hrest'⟩ := Item.next_of_rest hrest
    obtain ⟨-, rfl⟩ := hp.mem_rulesOf.mp hrule
    have hlt := hp.lt_rules (hp.right (Item.next_mem hnext)).2 hrule
    -- the state below expects the left side
    obtain ⟨b, z, -, hahead⟩ := hviable.ahead hp ha hstart he hpath
    obtain ⟨st, hs⟩ := hahead.exists_state
    obtain ⟨next, hgoto⟩ := ha.exists_goto hs (hahead.mem_items hp ha hs) hnext
    have hpath₂ : Path a start (roots p (.branch rule children :: stack)) next :=
      .cons hpath hs hgoto
    -- the right side is built, and then it is complete
    obtain ⟨hmoves₁, ⟨t, hpath₁⟩, hviable₁⟩ :=
      ih₁ hpath (hviable.close hnext hrule (hrest' ▸ hv.yields)) rfl
    rw [Nat.zero_add] at hviable₁
    obtain ⟨b', z', hr, hahead'⟩ := hviable₁.ahead hp ha hstart he hpath₁
    have hcompletes : Completes p a inputs t b' rule :=
      ⟨_, hahead', List.getElem?_eq_none (Nat.le_refl _), rfl⟩
    have hmove : Move p a inputs start (children.reverse ++ stack, v ++ r)
        (.branch rule children :: stack, v ++ r) := by
      rw [hr]
      exact .reduce hpath₁ hcompletes hlt rfl hchildren.length_eq hpath₂
    obtain ⟨hmoves₂, hpath', hviable'⟩ := ih₂ hpath₂ (hviable.goto hnext) hrest'
    rw [List.reverse_cons, List.append_assoc, List.length_cons, Nat.add_comm xs.length,
      ← Nat.add_assoc, List.append_assoc]
    exact ⟨(hmoves₁.tail hmove).trans hmoves₂, hpath', hviable'⟩

/-- The automaton moves along a derivation of an input, up to where the input is complete. -/
theorem Grows.moves_input (hp : p.Proper) (ha : a.Proper p) (hstart : a.starts[n]? = some start)
    (he : MayFollow p inputs n e) {x : Nat} (hx : p.rightOf (p.rules + n) = [x]) {d : Shape}
    {w : List Nat} (h : Grows p [x] [d] w) :
    Relation.ReflTransGen (Move p a inputs start) ([], w ++ [e]) ([d], [e]) ∧
      ∃ t, Path a start (roots p [d]) t ∧ Completes p a inputs t e (p.rules + n) := by
  have hpath : Path a start (roots p []) start := .nil
  obtain ⟨hmoves, ⟨t, ht⟩, hviable⟩ := h.moves hp ha hstart he hpath Viable.start hx
  obtain ⟨b, z, hr, hahead⟩ := hviable.ahead hp ha hstart he ht
  obtain ⟨rfl, -⟩ := List.cons.inj hr
  refine ⟨hmoves, t, ht, _, hahead, ?_, rfl⟩
  rw [Item.next?, hx]
  rfl

/-- The end of the input is never shifted. -/
theorem goto?_zero (hp : p.Proper) (ha : a.Proper p) {s : Nat} {st : ItemState}
    (hs : a.states[s]? = some st) : st.goto? 0 = none := by
  cases hgoto : st.goto? 0 with
  | none => rfl
  | some u =>
    obtain ⟨i, -, hnext⟩ := ha.goto_next hs hgoto
    exact absurd rfl (hp.right (Item.next_mem hnext)).1

/-- **There is at most one tree** for what an input derives. -/
theorem Settled.shape_unique (h : Settled p a inputs) (hp : p.Proper) (ha : a.Proper p)
    (hstart : a.starts[n]? = some start) (he : MayFollow p inputs n 0) {x : Nat}
    (hx : p.rightOf (p.rules + n) = [x]) {d d' : Shape} {w : List Nat} (hd : Grows p [x] [d] w)
    (hd' : Grows p [x] [d'] w) : d = d' := by
  obtain ⟨hmoves, t, hpath, hcompletes⟩ := hd.moves_input hp ha hstart he hx
  obtain ⟨hmoves', t', hpath', hcompletes'⟩ := hd'.moves_input hp ha hstart he hx
  -- where the input is complete and only its end follows, there is no move
  have hfinal : ∀ {d : Shape} {t : Nat} {c : List Shape × List Nat},
      Path a start (roots p [d]) t → Completes p a inputs t 0 (p.rules + n) →
      ¬ Move p a inputs start ([d], [0]) c := by
    intro d t c hpath hcompletes hmove
    cases hmove with
    | shift hpath' hs _ hgoto => exact absurd (hgoto.symm.trans (goto?_zero hp ha hs)) (by simp)
    | reduce hpath' hcompletes' hrule _ _ _ =>
      obtain rfl := hpath.unique hpath'
      have := h.unique hcompletes hcompletes'
      omega
  rcases Relation.ReflTransGen.total_of_right_unique (h.move_unique start) hmoves hmoves' with
    hleads | hleads
  · rcases hleads.cases_head with heq | ⟨c, hmove, -⟩
    · exact (List.cons.inj (Prod.mk.inj heq).1).1
    · exact absurd hmove (hfinal hpath hcompletes)
  · rcases hleads.cases_head with heq | ⟨c, hmove, -⟩
    · exact (List.cons.inj (Prod.mk.inj heq).1).1.symm
    · exact absurd hmove (hfinal hpath' hcompletes')

end Derivation

end GrammarTables.Lr
