import GrammarTables.Lr.Productions
import GrammarTables.Proofs.Arrays
import GrammarTables.Proofs.Grammar.Frozen
/-
# Productions: what they are and what they derive

The productions of a well-formed grammar (`Productions.Proper`): the rules of the grammar lead
from nonterminals to symbols of the grammar, the one of an input from a nonterminal of its own,
which stands in no right side, to the target of the input.  A sequence of symbols yields a
sequence of terminals if each nonterminal is replaced by what the right side of one of its
productions yields (`Yields`).
-/

namespace GrammarTables.Lr

namespace Productions

/-! ## 1. Productions of a grammar -/

/-- What holds of the productions of a well-formed grammar. -/
structure Proper (p : Productions) : Prop where
  terminals_le : p.terminals ≤ p.symbols
  symbols_le : p.symbols ≤ p.byLeft.size
  rules_le : p.rules ≤ p.size
  size_right : p.right.size = p.size
  mem_rulesOf : ∀ {rule x : Nat}, rule ∈ p.rulesOf x ↔ rule < p.size ∧ p.leftOf rule = x
  left : ∀ {rule : Nat}, rule < p.rules → p.terminals ≤ p.leftOf rule ∧ p.leftOf rule < p.symbols
  left_input : ∀ {rule : Nat}, p.rules ≤ rule → rule < p.size → p.symbols ≤ p.leftOf rule
  right : ∀ {rule x : Nat}, x ∈ p.rightOf rule → x ≠ 0 ∧ x < p.symbols
  right_input : ∀ {rule : Nat}, p.rules ≤ rule → rule < p.size →
    ∃ x, p.rightOf rule = [x] ∧ p.terminals ≤ x

section OfGrammar

variable (g : Grammar)

theorem size_ofGrammar : (ofGrammar g).size = g.ruleList.length + g.inputList.length := by
  simp [ofGrammar, size]

theorem leftOf_rule {i : Nat} {r : Rule} (h : g.ruleList[i]? = some r) :
    (ofGrammar g).leftOf i = r.left := by
  obtain ⟨hlt, rfl⟩ := List.getElem?_eq_some_iff.mp h
  simp [ofGrammar, leftOf, Array.getD_eq_getD_getElem?, List.getElem?_append_left, hlt]

theorem rightOf_rule {i : Nat} {r : Rule} (h : g.ruleList[i]? = some r) :
    (ofGrammar g).rightOf i = r.right.map (·.target) := by
  obtain ⟨hlt, rfl⟩ := List.getElem?_eq_some_iff.mp h
  simp [ofGrammar, rightOf, Array.getD_eq_getD_getElem?, List.getElem?_append_left, hlt]

theorem leftOf_input {i : Nat} (h : i < g.inputList.length) :
    (ofGrammar g).leftOf (g.ruleList.length + i) = g.grammarSymbols + i := by
  simp [ofGrammar, leftOf, Array.getD_eq_getD_getElem?, h]

theorem rightOf_input {i : Nat} {input : Input} (h : g.inputList[i]? = some input) :
    (ofGrammar g).rightOf (g.ruleList.length + i) = [input.target] := by
  simp [ofGrammar, rightOf, Array.getD_eq_getD_getElem?, List.getElem?_append_right, h]

/-- The production of an index is a rule of the grammar or belongs to an input. -/
theorem cases_of_lt {rule : Nat} (h : rule < (ofGrammar g).size) :
    (∃ r, g.ruleList[rule]? = some r) ∨
      ∃ i input, rule = g.ruleList.length + i ∧ g.inputList[i]? = some input := by
  rw [size_ofGrammar] at h
  rcases Nat.lt_or_ge rule g.ruleList.length with hlt | hge
  · exact Or.inl ⟨_, List.getElem?_eq_getElem hlt⟩
  · have hi : rule - g.ruleList.length < g.inputList.length := by omega
    exact Or.inr ⟨rule - g.ruleList.length, _, by omega, List.getElem?_eq_getElem hi⟩

theorem size_byLeft_ofGrammar :
    (ofGrammar g).byLeft.size = g.grammarSymbols + g.inputList.length := by
  simp [ofGrammar]

theorem mem_rulesOf_ofGrammar {rule x : Nat} : rule ∈ (ofGrammar g).rulesOf x ↔
    x < (ofGrammar g).byLeft.size ∧ rule < (ofGrammar g).size ∧ (ofGrammar g).leftOf rule = x := by
  have hleft : ∀ {ls : List Nat}, rule ∈ ls.zipIdx.filterMap
      (fun e => if e.1 = x then some e.2 else none) ↔ ls[rule]? = some x := by
    intro ls
    rw [List.mem_filterMap]
    constructor
    · rintro ⟨⟨l, r⟩, hmem, hr⟩
      rw [List.mem_zipIdx_iff_getElem?] at hmem
      simp only [Option.ite_none_right_eq_some, Option.some.injEq] at hr
      rw [← hr.1, ← hr.2]
      exact hmem
    · intro h
      refine ⟨(x, rule), List.mem_zipIdx_iff_getElem?.mpr h, ?_⟩
      simp
  have hrow : rule ∈ (ofGrammar g).rulesOf x ↔
      x < (ofGrammar g).byLeft.size ∧ (ofGrammar g).left.toList[rule]? = some x := by
    rw [size_byLeft_ofGrammar, ← hleft]
    simp only [rulesOf, ofGrammar, Array.getD_eq_getD_getElem?, List.getElem?_toArray,
      List.getElem?_map]
    by_cases hx : x < g.grammarSymbols + g.inputList.length
    · rw [List.getElem?_range hx]
      simp [hx]
    · rw [List.getElem?_eq_none (by simpa using hx)]
      simp [hx]
  rw [hrow, Array.getElem?_toList, leftOf, size]
  refine and_congr_right fun _ => ?_
  rw [Array.getD_eq_getD_getElem?, Array.getElem?_eq_some_iff]
  constructor
  · rintro ⟨hlt, h⟩
    exact ⟨hlt, by simp [hlt, h]⟩
  · rintro ⟨hlt, h⟩
    exact ⟨hlt, by simpa [hlt] using h⟩

/-- **The productions of a well-formed grammar.** -/
theorem proper_ofGrammar {g : Grammar} (hg : g.WellFormed) : (ofGrammar g).Proper := by
  have hinput : ∀ {rule : Nat}, g.ruleList.length ≤ rule → rule < (ofGrammar g).size →
      ∃ i input, rule = g.ruleList.length + i ∧ g.inputList[i]? = some input := by
    intro rule hge hlt
    rcases cases_of_lt g hlt with ⟨r, hr⟩ | h
    · have := (List.getElem?_eq_some_iff.mp hr).1
      omega
    · exact h
  have hleft : ∀ {rule : Nat}, rule < g.ruleList.length →
      g.terminals ≤ (ofGrammar g).leftOf rule ∧ (ofGrammar g).leftOf rule < g.grammarSymbols := by
    intro rule hlt
    rw [leftOf_rule g (List.getElem?_eq_getElem hlt)]
    exact hg.left _ (List.getElem_mem hlt)
  have hleft' : ∀ {rule : Nat}, g.ruleList.length ≤ rule → rule < (ofGrammar g).size →
      g.grammarSymbols ≤ (ofGrammar g).leftOf rule ∧
        (ofGrammar g).leftOf rule < (ofGrammar g).byLeft.size := by
    intro rule hge hlt
    obtain ⟨i, input, rfl, hi⟩ := hinput hge hlt
    have hlt' := (List.getElem?_eq_some_iff.mp hi).1
    rw [leftOf_input g hlt', size_byLeft_ofGrammar]
    omega
  have hsize := size_byLeft_ofGrammar g
  refine
    { terminals_le := hg.terminals_le
      symbols_le := by rw [hsize]; exact Nat.le_add_right _ _
      rules_le := by rw [size_ofGrammar]; exact Nat.le_add_right _ _
      size_right := by simp [ofGrammar, size]
      mem_rulesOf := ?_
      left := hleft
      left_input := fun hge hlt => (hleft' hge hlt).1
      right := ?_
      right_input := ?_ }
  · intro rule x
    rw [mem_rulesOf_ofGrammar]
    refine ⟨And.right, fun h => ⟨?_, h⟩⟩
    obtain ⟨hlt, rfl⟩ := h
    rcases Nat.lt_or_ge rule g.ruleList.length with hr | hr
    · have := (hleft hr).2
      omega
    · exact (hleft' hr hlt).2
  · intro rule x hx
    have hlt : rule < (ofGrammar g).size := by
      simpa [ofGrammar, size] using lt_size_of_mem_getD hx
    rcases cases_of_lt g hlt with ⟨r, hr⟩ | ⟨i, input, rfl, hi⟩
    · rw [rightOf_rule g hr] at hx
      obtain ⟨s, hs, rfl⟩ := List.mem_map.mp hx
      exact hg.right r (List.mem_of_getElem? hr) s hs
    · rw [rightOf_input g hi] at hx
      obtain rfl := List.mem_singleton.mp hx
      obtain ⟨hle, hlt⟩ := hg.inputs input (List.mem_of_getElem? hi)
      have := hg.terminals_pos
      exact ⟨by omega, hlt⟩
  · intro rule hge hlt
    obtain ⟨i, input, rfl, hi⟩ := hinput hge hlt
    exact ⟨input.target, rightOf_input g hi, (hg.inputs input (List.mem_of_getElem? hi)).1⟩

end OfGrammar

theorem Proper.isNonterminal_leftOf {p : Productions} (hp : p.Proper) {rule : Nat}
    (h : rule < p.size) : p.terminals ≤ p.leftOf rule := by
  rcases Nat.lt_or_ge rule p.rules with hlt | hge
  · exact (hp.left hlt).1
  · exact Nat.le_trans hp.terminals_le (hp.left_input hge h)

/-- A production of a symbol that stands in a right side is a rule of the grammar. -/
theorem Proper.lt_rules {p : Productions} (hp : p.Proper) {rule x : Nat} (hx : x < p.symbols)
    (h : rule ∈ p.rulesOf x) : rule < p.rules := by
  obtain ⟨hlt, rfl⟩ := hp.mem_rulesOf.mp h
  by_contra hge
  have := hp.left_input (Nat.not_lt.mp hge) hlt
  omega

/-! ## 2. What symbols yield -/

/-- **A sequence of symbols yields a sequence of terminals.** -/
inductive Yields (p : Productions) : List Nat → List Nat → Prop
  | nil : Yields p [] []
  | terminal {a : Nat} {xs w : List Nat} : a < p.terminals → Yields p xs w →
      Yields p (a :: xs) (a :: w)
  | rule {rule x : Nat} {xs u v : List Nat} : rule ∈ p.rulesOf x → Yields p (p.rightOf rule) u →
      Yields p xs v → Yields p (x :: xs) (u ++ v)

end Productions

end GrammarTables.Lr
