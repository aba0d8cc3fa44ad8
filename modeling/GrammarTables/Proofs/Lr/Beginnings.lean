import GrammarTables.Proofs.Lr.Flow
import GrammarTables.Proofs.Lr.Sentential
/-
# What a symbol can begin with: nothing is invented

In a grammar, every sequence that is nullable derives the empty sequence
(`FirstSets.derives_of_isNullable`), and every first terminal of a sequence begins something that
the sequence derives (`FirstSets.exists_derives`).  Where every nonterminal derives some terminals
nothing is missed either, so what may follow a symbol is what the rest and the lookahead after it
can begin with (`Context.follow_iff`).
-/

namespace GrammarTables

/-! ## 1. Sequences -/

namespace Grammar

variable {g : Grammar} {xs : List Nat}

/-- A sequence of symbols can begin with a terminal. -/
def CanBegin (g : Grammar) (xs : List Nat) (b : Nat) : Prop :=
  b < g.terminals ∧ ∃ v, g.Derives xs (b :: v)

/-- Every nonterminal derives a sequence of terminals. -/
def Productive (g : Grammar) : Prop :=
  ∀ x, g.terminals ≤ x → x < g.grammarSymbols →
    ∃ w, (∀ a ∈ w, a < g.terminals) ∧ g.Derives [x] w

/-- Where each nonterminal derives terminals, each sequence does. -/
theorem Productive.exists_word (h : g.Productive) (hxs : ∀ x ∈ xs, x < g.grammarSymbols) :
    ∃ w, (∀ a ∈ w, a < g.terminals) ∧ g.Derives xs w := by
  induction xs with
  | nil => exact ⟨[], by simp, .refl⟩
  | cons x xs ih =>
    obtain ⟨v, hv, hxs'⟩ := ih fun y hy => hxs y (List.mem_cons_of_mem x hy)
    obtain ⟨u, hu, hx⟩ : ∃ u, (∀ a ∈ u, a < g.terminals) ∧ g.Derives [x] u := by
      rcases Nat.lt_or_ge x g.terminals with hlt | hge
      · exact ⟨[x], by simpa using hlt, .refl⟩
      · exact h x hge (hxs x (by simp))
    exact ⟨u ++ v, List.forall_mem_append.mpr ⟨hu, hv⟩, hx.append hxs'⟩

/-- Before a terminal, a sequence can begin with something. -/
theorem Productive.exists_canBegin (h : g.Productive) (hxs : ∀ x ∈ xs, x < g.grammarSymbols)
    {a : Nat} (ha : a < g.terminals) : ∃ b, g.CanBegin (xs ++ [a]) b := by
  obtain ⟨w, hw, hderives⟩ := h.exists_word hxs
  have happend : g.Derives (xs ++ [a]) (w ++ [a]) := hderives.append .refl
  cases w with
  | nil => exact ⟨a, ha, [], happend⟩
  | cons b w => exact ⟨b, hw b (by simp), w ++ [a], happend⟩

end Grammar

namespace Lr

variable {g : Grammar}

/-! ## 2. What the first sets say -/

/-- Symbols of the grammar derive by productions what they derive by rules. -/
theorem Productions.Derives.toGrammar (hg : g.WellFormed) {xs ys : List Nat}
    (h : (Productions.ofGrammar g).Derives xs ys) (hxs : ∀ x ∈ xs, x < g.grammarSymbols) :
    g.Derives xs ys := by
  have hp := Productions.proper_ofGrammar hg
  induction h with
  | refl => exact .refl
  | tail _ hstep ih =>
    obtain @⟨rule, u, v, hrule⟩ := hstep
    have hlt : (Productions.ofGrammar g).leftOf rule < g.grammarSymbols :=
      ih.lt_grammarSymbols hg hxs _ (by simp)
    have hrewrites := rewrites_production (hp.lt_rules hlt (hp.mem_rulesOf.mpr ⟨hrule, rfl⟩))
    have hstep := Grammar.contextual_rewrites g hrewrites u v
    exact ih.tail (by simpa only [List.append_assoc, List.singleton_append] using hstep)

namespace FirstSets

variable {xs : List Nat}

theorem sound_ofGrammar (hg : g.WellFormed) :
    (ofProductions (.ofGrammar g)).Sound (.ofGrammar g) :=
  sound_ofProductions (Productions.proper_ofGrammar hg).indexed

/-- **Every first terminal begins something that is derived.** -/
theorem exists_derives (hg : g.WellFormed) (hxs : ∀ x ∈ xs, x < g.grammarSymbols) {b : Nat}
    (h : b ∈ (ofProductions (.ofGrammar g)).ofSeq xs) : ∃ v, g.Derives xs (b :: v) := by
  obtain ⟨-, v, hv⟩ := (sound_ofGrammar hg).exists_derives h
  exact ⟨v, hv.toGrammar hg hxs⟩

/-- **What is nullable derives the empty sequence.** -/
theorem derives_of_isNullable (hg : g.WellFormed) (hxs : ∀ x ∈ xs, x < g.grammarSymbols)
    (h : (ofProductions (.ofGrammar g)).isNullable xs = true) : g.Derives xs [] :=
  ((sound_ofGrammar hg).derives_of_isNullable h).toGrammar hg hxs

end FirstSets

/-! ## 3. What may follow -/

/-- A terminal grows into itself only. -/
theorem Grows.eq_of_terminal {p : Productions} (hp : p.Proper) {a : Nat} (ha : a < p.terminals)
    {ds : List Shape} {w : List Nat} (h : Grows p [a] ds w) : w = [a] := by
  cases h with
  | terminal _ h =>
    cases h
    rfl
  | rule hr =>
    obtain ⟨hlt, rfl⟩ := hp.mem_rulesOf.mp hr
    exact absurd ha (Nat.not_lt.mpr (hp.isNonterminal_leftOf hlt))

/-- **What may follow a symbol is what its rest and the lookahead can begin with.** -/
theorem Context.follow_iff (hg : g.WellFormed) (hproductive : g.Productive) {rest : List Nat}
    (hrest : ∀ x ∈ rest, x < g.grammarSymbols) {a b : Nat} (ha : a < g.terminals) :
    Follow (.ofGrammar g) rest a b ↔ g.CanBegin (rest ++ [a]) b := by
  have hp := Productions.proper_ofGrammar hg
  constructor
  · rintro (h | ⟨hnull, rfl⟩)
    · obtain ⟨v, hv⟩ := FirstSets.exists_derives hg hrest h
      exact ⟨FirstSets.lt_terminals h, v ++ [a], hv.append .refl⟩
    · exact ⟨ha, [], (FirstSets.derives_of_isNullable hg hrest hnull).append (v := [b]) .refl⟩
  · rintro ⟨hb, v, hv⟩
    -- what comes after the first terminal derives terminals too
    have hsymbols : ∀ x ∈ rest ++ [a], x < g.grammarSymbols := by
      refine List.forall_mem_append.mpr ⟨hrest, ?_⟩
      simpa using Nat.lt_of_lt_of_le ha hg.terminals_le
    have hv' := hv.lt_grammarSymbols hg hsymbols
    obtain ⟨w, hw, hvw⟩ := hproductive.exists_word fun x hx => hv' x (List.mem_cons_of_mem b hx)
    have hword : g.Derives (rest ++ [a]) (b :: w) :=
      hv.trans (Grammar.Derives.append (u := [b]) .refl hvw)
    obtain ⟨ds, hds⟩ := exists_grows_of_derives hg (List.forall_mem_cons.mpr ⟨hb, hw⟩) hword
    obtain ⟨ds₁, ds₂, w₁, w₂, -, hsplit, h₁, h₂⟩ := hds.of_append
    obtain rfl := h₂.eq_of_terminal hp ha
    cases w₁ with
    | nil =>
      obtain ⟨rfl, -⟩ := List.cons.inj hsplit
      exact Or.inr ⟨FirstSets.isNullable_of_yields hp h₁.yields, rfl⟩
    | cons c w₁ =>
      obtain ⟨rfl, -⟩ := List.cons.inj hsplit
      exact Or.inl (FirstSets.mem_ofSeq_of_yields hp h₁.yields)

end Lr

end GrammarTables
