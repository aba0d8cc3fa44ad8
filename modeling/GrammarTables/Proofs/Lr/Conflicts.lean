import Mathlib.Data.List.Forall2
import Mathlib.Data.Prod.Lex
import GrammarTables.Proofs.Ordered
import GrammarTables.Proofs.Lr.Bounds
import GrammarTables.Proofs.Lr.Canonical
import GrammarTables.Proofs.Lr.Precedence
/-
# Conflicts

In a state before a terminal the automaton may allow several actions (`Allows`): to shift the
terminal, to reduce one of several rules, to accept.  The tables keep the one that the policy names
(`Chooses`).  What is given up is recorded (`Clash`), unless declared precedences decide between the
rule and the terminal, or an input that may go on does (`rivals_cases`).  Each record has rivals
(`Clash.exists_rivals`), and the records that differ in the lookahead only are reported together, by
one finding (`reports_conflictFindings`).
-/

namespace GrammarTables

/-! ## 1. What precedences decide -/

namespace Grammar

/-- **The precedences prefer a rule to a terminal**: the rule binds tighter, or as tightly and the
terminal does not associate to the right. -/
def Prefers (g : Grammar) (rule a : Nat) : Prop :=
  ∃ v w, g.DeclaresRule rule v ∧ g.Declares a w ∧
    (w.level < v.level ∨ w.level = v.level ∧ w.assoc ≠ .right)

/-- **The precedences decide** between a rule and a terminal: both are declared, and if the levels
are equal, then the terminals of that level associate. -/
def Decides (g : Grammar) (rule a : Nat) : Prop :=
  ∃ v w, g.DeclaresRule rule v ∧ g.Declares a w ∧ (w.level = v.level → w.assoc ≠ .nonAssoc)

/-- A rule and a terminal share a level of terminals that do not associate. -/
def NonAssociative (g : Grammar) (rule a : Nat) : Prop :=
  ∃ v w, g.DeclaresRule rule v ∧ g.Declares a w ∧ w.level = v.level ∧ w.assoc = .nonAssoc

end Grammar

namespace Lr

section Outcome

variable {g : Grammar} {rule a : Nat}

/-- What holds of how a conflict is settled, unless it is by default, is a relation between two
declared precedences. -/
theorem outcome_iff {P : Precedence → Precedence → Prop} {Q : ShiftReduce → Prop}
    (hdefault : ¬ Q .shiftByDefault)
    (h : ∀ v w, Q (resolveShiftReduce (some v) (some w)) ↔ P v w) :
    Q ((policyOf g).outcome rule a) ↔ ∃ v w, g.DeclaresRule rule v ∧ g.Declares a w ∧ P v w := by
  simp only [← rulePrecedence_iff, ← terminalPrecedence_iff, Policy.outcome]
  cases (policyOf g).rulePrecedence rule with
  | none => simpa [resolveShiftReduce] using hdefault
  | some v =>
    cases (policyOf g).terminalPrecedence a with
    | none => simpa [resolveShiftReduce] using hdefault
    | some w => simp [h]

theorem prefers_iff : (policyOf g).outcome rule a = .reduce ∨
    (policyOf g).outcome rule a = .nonAssoc ↔ g.Prefers rule a :=
  outcome_iff (Q := fun o => o = .reduce ∨ o = .nonAssoc) (by simp) fun v w => by
    grind [resolveShiftReduce]

theorem decides_iff : (policyOf g).outcome rule a = .shift ∨
    (policyOf g).outcome rule a = .reduce ↔ g.Decides rule a :=
  outcome_iff (Q := fun o => o = .shift ∨ o = .reduce) (by simp) fun v w => by
    grind [resolveShiftReduce]

theorem nonAssociative_iff : (policyOf g).outcome rule a = .nonAssoc ↔ g.NonAssociative rule a :=
  outcome_iff (Q := fun o => o = .nonAssoc) (by simp) fun v w => by grind [resolveShiftReduce]

theorem declared_iff : (policyOf g).outcome rule a ≠ .shiftByDefault ↔
    ∃ v w, g.DeclaresRule rule v ∧ g.Declares a w :=
  (outcome_iff (Q := fun o => o ≠ .shiftByDefault) (P := fun _ _ => True) (by simp) fun v w => by
    grind [resolveShiftReduce]).trans (by simp)

end Outcome

/-! ## 2. The actions that are allowed -/

/-- A production is complete in a state, and the terminal is one of its lookaheads. -/
def CompleteBefore (g : Grammar) (s : Nat) (st : ItemState) (a rule : Nat) : Prop :=
  completeItem g rule ∈ st.items ∧ ∃ las, (rule, las) ∈ (reductionsFor g).getD s [] ∧ a ∈ las

/-- **What the automaton allows** in a state before a terminal. -/
inductive Allows (g : Grammar) (s : Nat) (st : ItemState) (a : Nat) : Action → Prop
  /-- The state has a transition on the terminal. -/
  | shift {u : Nat} (hgoto : st.goto? a = some u) : Allows g s st a (.shift u)
  /-- A rule is complete. -/
  | reduce {rule : Nat} (hrule : rule < g.ruleList.length) (h : CompleteBefore g s st a rule) :
    Allows g s st a (.reduce rule)
  /-- The production of an input is complete. -/
  | accept {rule : Nat} (hrule : g.ruleList.length ≤ rule) (h : CompleteBefore g s st a rule) :
    Allows g s st a .accept

/-- The first of the rules that may be reduced. -/
def Foremost (g : Grammar) (s : Nat) (st : ItemState) (a rule : Nat) : Prop :=
  Allows g s st a (.reduce rule) ∧ ∀ rule', Allows g s st a (.reduce rule') → rule ≤ rule'

/-- **What the policy names**: of the rules the first one, and that one or the shift as the
precedences prefer; to accept, where there is nothing else to do. -/
inductive Chooses (g : Grammar) (s : Nat) (st : ItemState) (a : Nat) : Action → Prop
  | shift {u : Nat} (h : Allows g s st a (.shift u))
    (hrules : ∀ rule, Foremost g s st a rule → ¬ g.Prefers rule a) : Chooses g s st a (.shift u)
  | reduce {rule : Nat} (h : Foremost g s st a rule)
    (hshift : ∀ u, Allows g s st a (.shift u) → g.Prefers rule a) : Chooses g s st a (.reduce rule)
  | accept (h : Allows g s st a .accept) (honly : ∀ x, Allows g s st a x → x = .accept) :
    Chooses g s st a .accept

theorem Allows.goto {g : Grammar} {s a u : Nat} {st : ItemState}
    (h : Allows g s st a (.shift u)) : st.goto? a = some u := by
  cases h with
  | shift hgoto => exact hgoto

theorem Chooses.allows {g : Grammar} {s a : Nat} {st : ItemState} {x : Action}
    (h : Chooses g s st a x) : Allows g s st a x := by
  cases h with
  | shift h => exact h
  | reduce h => exact h.1
  | accept h => exact h

section Allows

variable {g : Grammar} (hg : g.WellFormed) {s a : Nat} {st : ItemState}
  (hs : (automatonOf g).states[s]? = some st)

include hg hs in
theorem mem_candidatesAt_iff {rule : Nat} :
    rule ∈ candidatesAt g s a ↔ CompleteBefore g s st a rule := by
  rw [candidatesAt, mem_candidates, CompleteBefore]
  constructor
  · rintro ⟨las, hmem, ha⟩
    exact ⟨completeItem_mem_of_mem_reductions hg hs hmem, las, hmem, ha⟩
  · exact And.right

include hg hs in
/-- What is allowed is the shift, or what becomes of a production that may be reduced. -/
theorem allows_iff {x : Action} : Allows g s st a x ↔
    (∃ u, st.goto? a = some u ∧ x = .shift u) ∨
      ∃ rule ∈ candidatesAt g s a, x = (policyOf g).reduceAction rule := by
  have hrules : (policyOf g).rules = g.ruleList.length := rfl
  simp only [mem_candidatesAt_iff hg hs, Policy.reduceAction, hrules]
  constructor
  · rintro (hgoto | ⟨hrule, h⟩ | ⟨hrule, h⟩)
    · exact Or.inl ⟨_, hgoto, rfl⟩
    · exact Or.inr ⟨_, h, (if_pos hrule).symm⟩
    · exact Or.inr ⟨_, h, (if_neg (Nat.not_lt.mpr hrule)).symm⟩
  · rintro (⟨u, hgoto, rfl⟩ | ⟨rule, h, rfl⟩)
    · exact .shift hgoto
    · split
      · exact .reduce ‹_› h
      · exact .accept (Nat.not_lt.mp ‹_›) h

include hg hs in
theorem allows_reduce_iff {rule : Nat} : Allows g s st a (.reduce rule) ↔
    rule < g.ruleList.length ∧ rule ∈ candidatesAt g s a := by
  rw [mem_candidatesAt_iff hg hs]
  exact ⟨fun | .reduce hrule h => ⟨hrule, h⟩, fun h => .reduce h.1 h.2⟩

include hg hs in
/-- The first of the rules is the least production, unless that belongs to an input. -/
theorem foremost_iff {rule : Nat} : Foremost g s st a rule ↔
    rule < g.ruleList.length ∧ resolveReduceReduce (candidatesAt g s a) = some rule := by
  simp only [Foremost, allows_reduce_iff hg hs, resolveReduceReduce, List.min?_eq_some_iff]
  constructor
  · rintro ⟨⟨hrule, hmem⟩, hleast⟩
    refine ⟨hrule, hmem, fun rule' hmem' => ?_⟩
    rcases Nat.lt_or_ge rule' g.ruleList.length with hlt | hge
    · exact hleast rule' ⟨hlt, hmem'⟩
    · exact Nat.le_trans (Nat.le_of_lt hrule) hge
  · rintro ⟨hrule, hmem, hleast⟩
    exact ⟨⟨hrule, hmem⟩, fun rule' h => hleast rule' h.2⟩

/-! ## 3. The action that is kept -/

theorem Chooses.unique {x y : Action} (h : Chooses g s st a x) (h' : Chooses g s st a y) :
    x = y := by
  cases h with
  | shift hu hrules =>
    cases h' with
    | shift hv => rw [Option.some.inj (hu.goto.symm.trans hv.goto)]
    | reduce hrule hshift => exact absurd (hshift _ hu) (hrules _ hrule)
    | accept _ honly => exact honly _ hu
  | reduce hrule hshift =>
    cases h' with
    | shift hv hrules => exact absurd (hshift _ hv) (hrules _ hrule)
    | reduce hrule' => rw [Nat.le_antisymm (hrule.2 _ hrule'.1) (hrule'.2 _ hrule.1)]
    | accept _ honly => exact honly _ hrule.1
  | accept haccept honly =>
    cases h' with
    | shift hv => exact (honly _ hv).symm
    | reduce hrule => exact (honly _ hrule.1).symm
    | accept => rfl

include hg hs in
/-- **An entry is what the policy names**, and an error if nothing is allowed. -/
theorem chooses_entryOf : (∀ x, ¬ Allows g s st a x) ∧
      (entryOf g (reductionsFor g) s st a).1 = .error ∨
    Chooses g s st a (entryOf g (reductionsFor g) s st a).1 := by
  rw [entryOf_eq]
  cases hmin : resolveReduceReduce (candidatesAt g s a) with
  | none =>
    rw [Policy.entry_of_none hmin]
    have hnil := List.min?_eq_none_iff.mp hmin
    cases hgoto : st.goto? a with
    | none =>
      exact Or.inl ⟨fun x hx => by simpa [hgoto, hnil] using (allows_iff hg hs).mp hx, rfl⟩
    | some u =>
      refine Or.inr (.shift (.shift hgoto) fun rule hrule => ?_)
      exact absurd (hmin.symm.trans ((foremost_iff hg hs).mp hrule).2) (by simp)
  | some winner =>
    obtain ⟨hmem, hleast⟩ := List.min?_eq_some_iff.mp hmin
    have hwinner : ∀ {rule : Nat}, Foremost g s st a rule → rule = winner := fun hrule =>
      Option.some.inj (((foremost_iff hg hs).mp hrule).2.symm.trans hmin)
    refine Or.inr ?_
    rcases Nat.lt_or_ge winner (policyOf g).rules with hlt | hge
    · have hfirst := (foremost_iff hg hs).mpr ⟨hlt, hmin⟩
      cases hgoto : st.goto? a with
      | none =>
        rw [Policy.entry_of_reduce hmin, Policy.reduceAction, if_pos hlt]
        exact .reduce hfirst fun u hu => absurd (hgoto.symm.trans hu.goto) (by simp)
      | some u =>
        have hshift : ¬ g.Prefers winner a → Chooses g s st a (.shift u) := fun hnot =>
          .shift (.shift hgoto) fun rule hrule => hwinner hrule ▸ hnot
        have hreduce : g.Prefers winner a → Chooses g s st a (.reduce winner) := fun h =>
          .reduce hfirst fun _ _ => h
        rw [Policy.entry_of_rule hmin hlt]
        rw [← prefers_iff] at hshift hreduce
        cases houtcome : (policyOf g).outcome winner a with
        | shift => exact hshift (by simp [houtcome])
        | reduce => exact hreduce (Or.inl houtcome)
        | nonAssoc => exact hreduce (Or.inr houtcome)
        | shiftByDefault => exact hshift (by simp [houtcome])
    · -- every production that may be reduced belongs to an input
      cases hgoto : st.goto? a with
      | none =>
        rw [Policy.entry_of_reduce hmin, Policy.reduceAction, if_neg (Nat.not_lt.mpr hge)]
        refine .accept (.accept hge ((mem_candidatesAt_iff hg hs).mp hmem)) fun x hx => ?_
        rcases (allows_iff hg hs).mp hx with ⟨u, hu, -⟩ | ⟨rule, hrule, rfl⟩
        · exact absurd (hgoto.symm.trans hu) (by simp)
        · exact if_neg (Nat.not_lt.mpr (Nat.le_trans hge (hleast rule hrule)))
      | some u =>
        rw [Policy.entry_of_input hmin hge]
        refine .shift (.shift hgoto) fun rule hrule => ?_
        have hlt := ((foremost_iff hg hs).mp hrule).1
        exact absurd (hwinner hrule ▸ hlt) (Nat.not_lt.mpr hge)

/-! ## 4. What is recorded -/

/-- **What a conflict of a state tells.** -/
inductive Clash (g : Grammar) (st : ItemState) : Conflict → Prop
  /-- Several productions are complete. -/
  | productions {s a : Nat} {rules : List Nat} (hordered : rules.Pairwise (· < ·))
    (hrules : ∀ rule, rule ∈ rules ↔ CompleteBefore g s st a rule) (hseveral : 1 < rules.length) :
    Clash g st ⟨s, a, .reduceReduce, rules⟩
  /-- The first rule and the terminal share a level that does not associate. -/
  | nonAssoc {s a rule u : Nat} (hrule : Foremost g s st a rule)
    (hshift : Allows g s st a (.shift u)) (h : g.NonAssociative rule a) :
    Clash g st ⟨s, a, .shiftReduce .nonAssoc, [rule]⟩
  /-- The first rule or the terminal has no declared precedence. -/
  | undeclared {s a rule u : Nat} (hrule : Foremost g s st a rule)
    (hshift : Allows g s st a (.shift u))
    (h : ¬ ∃ v w, g.DeclaresRule rule v ∧ g.Declares a w) :
    Clash g st ⟨s, a, .shiftReduce .shiftByDefault, [rule]⟩

include hg hs in
/-- **An entry records what its conflicts tell**, and all of it. -/
theorem mem_entryOf_iff {c : Conflict} : c ∈ (entryOf g (reductionsFor g) s st a).2 ↔
    c.state = s ∧ c.lookahead = a ∧ Clash g st c := by
  have hmem : ∀ rule, rule ∈ candidatesAt g s a ↔ CompleteBefore g s st a rule := fun _ =>
    mem_candidatesAt_iff hg hs
  rw [entryOf_eq, Policy.mem_entry]
  constructor
  · rintro (⟨hseveral, rfl⟩ | ⟨winner, hmin, hlt, hsome, h⟩)
    · exact ⟨rfl, rfl, .productions (pairwise_candidatesAt hs a) hmem hseveral⟩
    · obtain ⟨u, hu⟩ := Option.isSome_iff_exists.mp hsome
      have hfirst := (foremost_iff hg hs).mpr ⟨hlt, hmin⟩
      rcases h with ⟨houtcome, rfl⟩ | ⟨houtcome, rfl⟩
      · exact ⟨rfl, rfl, .nonAssoc hfirst (.shift hu) (nonAssociative_iff.mp houtcome)⟩
      · exact ⟨rfl, rfl, .undeclared hfirst (.shift hu) fun h => declared_iff.mpr h houtcome⟩
  · rintro ⟨rfl, rfl, hclash⟩
    cases hclash with
    | productions hordered hrules hseveral =>
      have heq := ascending_ext hordered (pairwise_candidatesAt hs _) fun rule =>
        (hrules rule).trans (hmem rule).symm
      exact Or.inl ⟨heq ▸ hseveral, by rw [← heq]⟩
    | nonAssoc hrule hshift h =>
      obtain ⟨hlt, hmin⟩ := (foremost_iff hg hs).mp hrule
      exact Or.inr ⟨_, hmin, hlt, by simp [hshift.goto], Or.inl ⟨nonAssociative_iff.mpr h, rfl⟩⟩
    | undeclared hrule hshift h =>
      obtain ⟨hlt, hmin⟩ := (foremost_iff hg hs).mp hrule
      exact Or.inr ⟨_, hmin, hlt, by simp [hshift.goto],
        Or.inr ⟨by_contra fun hne => h (declared_iff.mp hne), rfl⟩⟩

include hg hs in
/-- **What is given up is recorded**, unless precedences decide between a rule and the shift, or
there are but a shift and an input. -/
theorem rivals_cases {x y : Action} (hx : Allows g s st a x) (hy : Allows g s st a y)
    (hne : x ≠ y) : (∃ c : Conflict, c.state = s ∧ c.lookahead = a ∧ Clash g st c) ∨
    (∃ rule u, (∀ z, Allows g s st a z ↔ z = .reduce rule ∨ z = .shift u) ∧ g.Decides rule a) ∨
    ∃ u, ∀ z, Allows g s st a z ↔ z = .shift u ∨ z = .accept := by
  have hallows := fun z => allows_iff (x := z) (a := a) hg hs
  by_cases hseveral : 1 < (candidatesAt g s a).length
  · exact Or.inl ⟨_, rfl, rfl, .productions (pairwise_candidatesAt hs a)
      (fun _ => mem_candidatesAt_iff hg hs) hseveral⟩
  match hcandidates : candidatesAt g s a, hseveral with
  | [], _ =>
    -- nothing but the shift
    simp only [hcandidates, List.not_mem_nil, false_and, exists_false, or_false] at hallows
    obtain ⟨u, hu, rfl⟩ := (hallows x).mp hx
    obtain ⟨v, hv, rfl⟩ := (hallows y).mp hy
    exact absurd (congrArg Action.shift (Option.some.inj (hu.symm.trans hv))) hne
  | [winner], _ =>
    simp only [hcandidates, List.mem_singleton, exists_eq_left] at hallows
    cases hgoto : st.goto? a with
    | none =>
      simp only [hgoto, reduceCtorEq, false_and, exists_false, false_or] at hallows
      exact absurd (((hallows x).mp hx).trans ((hallows y).mp hy).symm) hne
    | some u =>
      simp only [hgoto, Option.some.injEq, exists_eq_left'] at hallows
      rcases Nat.lt_or_ge winner (policyOf g).rules with hlt | hge
      · simp only [Policy.reduceAction, if_pos hlt, or_comm] at hallows
        have hfirst : Foremost g s st a winner :=
          (foremost_iff hg hs).mpr ⟨hlt, by rw [hcandidates]; rfl⟩
        cases houtcome : (policyOf g).outcome winner a with
        | shift => exact Or.inr (Or.inl ⟨winner, u, hallows, decides_iff.mp (Or.inl houtcome)⟩)
        | reduce => exact Or.inr (Or.inl ⟨winner, u, hallows, decides_iff.mp (Or.inr houtcome)⟩)
        | nonAssoc =>
          exact Or.inl
            ⟨_, rfl, rfl, .nonAssoc hfirst (.shift hgoto) (nonAssociative_iff.mp houtcome)⟩
        | shiftByDefault =>
          exact Or.inl ⟨_, rfl, rfl, .undeclared hfirst (.shift hgoto) fun h =>
            declared_iff.mpr h houtcome⟩
      · simp only [Policy.reduceAction, if_neg (Nat.not_lt.mpr hge)] at hallows
        exact Or.inr (Or.inr ⟨u, hallows⟩)
  | _ :: _ :: _, hone => exact absurd (by simp) hone

include hg hs in
/-- Where the production of an input is complete, its target was read, and nothing else. -/
theorem completed_of_completeItem {rule : Nat} (hrule : g.ruleList.length ≤ rule)
    (h : completeItem g rule ∈ st.items) :
    Completed (.ofGrammar g) rule st.kernel ∧ ⟨rule, 1⟩ ∈ st.kernel := by
  have hp := Productions.proper_ofGrammar hg
  have ha : (automatonOf g).Proper (.ofGrammar g) := Automaton.proper_ofProductions hp
  rw [ha.items hs] at h
  have hlt : rule < (Productions.ofGrammar g).size :=
    (valid_of_mem_closure hp (ha.kernel hs).2 _ h).1
  have hlength : ((Productions.ofGrammar g).rightOf rule).length = 1 := by
    obtain ⟨r, hr⟩ | ⟨i, input, rfl, hi⟩ := Productions.cases_of_lt g hlt
    · exact absurd (List.getElem?_eq_some_iff.mp hr).1 (Nat.not_lt.mpr hrule)
    · rw [Productions.rightOf_input g hi]
      rfl
  have hkernel : completeItem g rule ∈ st.kernel := by
    by_contra hnot
    exact absurd (of_mem_closure hp h hnot).2.1 (Nat.not_lt.mpr hrule)
  rw [completeItem, hlength] at hkernel
  exact ⟨Automaton.completed_of_mem hp hrule hs hkernel, hkernel⟩

include hg hs in
/-- **At most one input is complete in a state.** -/
theorem input_unique {rule rule' : Nat} (hrule : g.ruleList.length ≤ rule)
    (hrule' : g.ruleList.length ≤ rule') (h : completeItem g rule ∈ st.items)
    (h' : completeItem g rule' ∈ st.items) : rule' = rule :=
  (completed_of_completeItem hg hs hrule h).1.rule_eq (Productions.proper_ofGrammar hg) hrule'
    (completed_of_completeItem hg hs hrule' h').2

end Allows

/-- **The conflicts of the tables**: what there is to tell in some state before some terminal. -/
theorem mem_conflicts_iff {g : Grammar} (hg : g.WellFormed) {options : ParseOptions}
    {t : ParseTable} {ds : List Diagnostic} (h : build g options = .ok (t, ds)) {c : Conflict} :
    c ∈ t.conflicts ↔ ∃ st, (automatonOf g).states[c.state]? = some st ∧
      c.lookahead < g.terminals ∧ Clash g st c := by
  rw [mem_conflicts_of_build h]
  constructor
  · rintro ⟨s, st, a, hs, ha, hc⟩
    obtain ⟨rfl, rfl, hclash⟩ := (mem_entryOf_iff hg hs).mp hc
    exact ⟨st, hs, ha, hclash⟩
  · rintro ⟨st, hs, ha, hclash⟩
    exact ⟨_, st, _, hs, ha, (mem_entryOf_iff hg hs).mpr ⟨rfl, rfl, hclash⟩⟩

/-- **A conflict has rivals.** -/
theorem Clash.exists_rivals {g : Grammar} (hg : g.WellFormed) {st : ItemState} {c : Conflict}
    (h : Clash g st c) (hs : (automatonOf g).states[c.state]? = some st) :
    ∃ x y, x ≠ y ∧ Allows g c.state st c.lookahead x ∧ Allows g c.state st c.lookahead y := by
  cases h with
  | @productions s a rules hordered hrules hseveral =>
    match rules, hseveral with
    | rule :: rule' :: rest, _ =>
      have hlt : rule < rule' := (List.pairwise_cons.mp hordered).1 rule' (by simp)
      have h := (hrules rule).mp (by simp)
      have h' := (hrules rule').mp (by simp)
      have hrule : rule < g.ruleList.length := by
        by_contra hge
        have hge := Nat.not_lt.mp hge
        have := input_unique hg hs hge (Nat.le_trans hge (Nat.le_of_lt hlt)) h.1 h'.1
        omega
      rcases Nat.lt_or_ge rule' g.ruleList.length with hrule' | hrule'
      · exact ⟨_, _, by simpa using Nat.ne_of_lt hlt, .reduce hrule h, .reduce hrule' h'⟩
      · exact ⟨_, _, by simp, .reduce hrule h, .accept hrule' h'⟩
  | nonAssoc hrule hshift => exact ⟨_, _, by simp, hrule.1, hshift⟩
  | undeclared hrule hshift => exact ⟨_, _, by simp, hrule.1, hshift⟩

/-! ## 5. What is reported -/

/-- The lexicographic order is the one that lists of numbers have. -/
theorem listBefore_eq (ms ns : List Nat) : listBefore ms ns = decide (ms < ns) := by
  induction ms generalizing ns with
  | nil => cases ns <;> simp [listBefore]
  | cons m ms ih =>
    cases ns with
    | nil => simp [listBefore]
    | cons n ns => simp [listBefore, ih, List.cons_lt_cons_iff]

theorem ConflictKind.rank_injective : Function.Injective ConflictKind.rank := by
  rintro (⟨⟨⟩⟩ | ⟨⟩) (⟨⟨⟩⟩ | ⟨⟩) h <;> first | rfl | cases h

namespace ConflictKey

/-- The place of a key in the order of reporting. -/
def place (key : ConflictKey) : Nat ×ₗ Nat ×ₗ List Nat :=
  toLex (key.state, toLex (key.kind.rank, key.rules))

theorem place_injective : Function.Injective place := by
  rintro ⟨s, kind, rules⟩ ⟨s', kind', rules'⟩ h
  simp only [place, EmbeddingLike.apply_eq_iff_eq, Prod.mk.injEq] at h
  obtain ⟨rfl, hrank, rfl⟩ := h
  rw [ConflictKind.rank_injective hrank]

theorem ranks_before : Ranks before := by
  have heq : before = fun key key' => decide (key.place < key'.place) := by
    funext key key'
    simp only [before, place, listBefore_eq, Prod.Lex.toLex_lt_toLex,
      ← ConflictKind.rank_injective.eq_iff, Bool.decide_or, Bool.decide_and]
  exact heq ▸ ranks_of_injective place_injective

end ConflictKey

theorem Conflict.eq_of_key {c c' : Conflict} (hkey : c.key = c'.key)
    (hla : c.lookahead = c'.lookahead) : c = c' := by
  obtain ⟨s, a, kind, rules⟩ := c
  obtain ⟨s', a', kind', rules'⟩ := c'
  simp only [Conflict.key, ConflictKey.mk.injEq] at hkey
  obtain ⟨rfl, rfl, rfl⟩ := hkey
  rw [show a = a' from hla]

/-- **A finding tells the conflicts that differ in the lookahead only**: it lists their lookaheads,
each once, and is an error if they are between terminals that do not associate, and else a
warning. -/
structure Reports (g : Grammar) (conflicts : List Conflict) (key : ConflictKey) (d : Diagnostic) :
    Prop where
  kind : d.kind = .grammarConflict
  severity : d.severity = if key.kind = .shiftReduce .nonAssoc then .error else .warning
  lookaheads : ∃ las : List Nat, las.Nodup ∧
    (∀ a, a ∈ las ↔ ⟨key.state, a, key.kind, key.rules⟩ ∈ conflicts) ∧
    d = conflictFinding g (.ofGrammar g) key las

section Reports

variable {g : Grammar} {conflicts : List Conflict} {options : ParseOptions} {t : ParseTable}
  {ds : List Diagnostic}

theorem kind_of_mem_symbolFindings {d : Diagnostic} (h : d ∈ symbolFindings g) :
    d.kind ≠ .grammarConflict := by
  simp only [symbolFindings, List.mem_append, List.mem_map] at h
  rcases h with (⟨x, -, rfl⟩ | ⟨x, -, rfl⟩) | ⟨x, -, rfl⟩ <;>
    simp [Diagnostic.error, Diagnostic.warning]

theorem kind_conflictFinding (key : ConflictKey) (las : List Nat) :
    (conflictFinding g (.ofGrammar g) key las).kind = .grammarConflict := by
  unfold conflictFinding
  dsimp only
  split <;> rfl

theorem severity_conflictFinding (key : ConflictKey) (las : List Nat) :
    (conflictFinding g (.ofGrammar g) key las).severity =
      if key.kind = .shiftReduce .nonAssoc then .error else .warning := by
  unfold conflictFinding
  dsimp only
  split
  · rename_i h
    rw [h, if_pos rfl]
    rfl
  · rename_i outcome hne h
    rw [h, if_neg (by simpa using hne)]
    rfl
  · rename_i h
    rw [h, if_neg (by simp)]
    rfl

/-- **The findings about conflicts**, one for each key. -/
theorem reports_conflictFindings (hnodup : conflicts.Nodup) :
    ∃ keys : List ConflictKey, keys.Nodup ∧
      (∀ key, key ∈ keys ↔ ∃ c ∈ conflicts, c.key = key) ∧
      List.Forall₂ (Reports g conflicts) keys (conflictFindings g (.ofGrammar g) conflicts) := by
  refine ⟨_, ConflictKey.ranks_before.nodup_sortBy (conflicts.map Conflict.key), fun key => ?_, ?_⟩
  · rw [ConflictKey.ranks_before.mem_sortBy, List.mem_map]
  · rw [conflictFindings, List.forall₂_map_right_iff, List.forall₂_same]
    intro key _
    refine ⟨kind_conflictFinding key _, severity_conflictFinding key _, _, ?_, fun a => ?_, rfl⟩
    · refine (hnodup.filter _).map_on fun c hc c' hc' hla => Conflict.eq_of_key ?_ hla
      simp only [List.mem_filter, decide_eq_true_eq] at hc hc'
      rw [hc.2, hc'.2]
    · simp only [List.mem_map, List.mem_filter, decide_eq_true_eq]
      constructor
      · rintro ⟨c, ⟨hc, rfl⟩, rfl⟩
        exact hc
      · exact fun h => ⟨_, ⟨h, rfl⟩, rfl⟩

/-- The findings about conflicts are all that there is of their kind. -/
theorem findingsOf_grammarConflict (h : build g options = .ok (t, ds)) :
    findingsOf .grammarConflict ds = conflictFindings g (.ofGrammar g) t.conflicts := by
  have hconflicts : findingsOf .grammarConflict (conflictFindings g (.ofGrammar g) t.conflicts) =
      conflictFindings g (.ofGrammar g) t.conflicts := findingsOf_eq_self fun d hd => by
    obtain ⟨key, -, rfl⟩ := List.mem_map.mp hd
    exact kind_conflictFinding key _
  rw [findings_of_build h, findingsOf_append, hconflicts,
    findingsOf_eq_nil fun d hd => kind_of_mem_symbolFindings hd, List.nil_append]

end Reports

/-! ## 6. Nothing is dropped silently -/

/-- **What the tables do about rivals** in a state before a terminal. -/
structure Verdict (g : Grammar) (t : ParseTable) (s : Nat) (st : ItemState) (a : Nat) : Prop where
  error : (∀ x, ¬ Allows g s st a x) → t.action s a = .error
  only : ∀ x, Allows g s st a x → (∀ y, Allows g s st a y → y = x) → t.action s a = x
  chosen : (∃ x, Allows g s st a x) → ∀ z, Chooses g s st a z ↔ z = t.action s a
  recorded : ∀ x y, Allows g s st a x → Allows g s st a y → x ≠ y →
    (∃ c ∈ t.conflicts, c.state = s ∧ c.lookahead = a) ∨
    (∃ rule u, (∀ z, Allows g s st a z ↔ z = .reduce rule ∨ z = .shift u) ∧ g.Decides rule a) ∨
    ∃ u, ∀ z, Allows g s st a z ↔ z = .shift u ∨ z = .accept

/-- **Conflicts are not dropped silently.**  The tables keep the only action that is allowed, or the
one that the policy names, and record a conflict where neither precedences nor an input that may go
on decide.  Each conflict has rivals, and is told by one finding, which is an error for terminals
that do not associate, and else a warning. -/
theorem conflicts_reported {g : Grammar} (hg : g.Frozen) {options : ParseOptions} {t : ParseTable}
    {ds : List Diagnostic} (h : build g options = .ok (t, ds)) :
    (∀ s st a, (automatonOf g).states[s]? = some st → a < g.terminals → Verdict g t s st a) ∧
    (∀ c ∈ t.conflicts, ∃ st x y, (automatonOf g).states[c.state]? = some st ∧
      c.lookahead < g.terminals ∧ Clash g st c ∧ x ≠ y ∧
      Allows g c.state st c.lookahead x ∧ Allows g c.state st c.lookahead y) ∧
    ∃ keys : List ConflictKey, keys.Nodup ∧
      (∀ key, key ∈ keys ↔ ∃ c ∈ t.conflicts, c.key = key) ∧
      List.Forall₂ (Reports g t.conflicts) keys (findingsOf .grammarConflict ds) := by
  have hwell := hg.wellFormed
  refine ⟨fun s st a hs ha => ?_, fun c hc => ?_, ?_⟩
  · have haction := action_of_build h hs ha
    have hchosen : (∃ x, Allows g s st a x) → Chooses g s st a (t.action s a) := by
      rintro ⟨x, hx⟩
      exact haction ▸ (chooses_entryOf hwell hs).resolve_left fun hnone => hnone.1 x hx
    exact
      { error := fun hnone => (chooses_entryOf hwell hs).elim (fun herror => haction ▸ herror.2)
          fun hchooses => absurd hchooses.allows (hnone _)
        only := fun x hx honly => honly _ (hchosen ⟨x, hx⟩).allows
        chosen := fun hsome z =>
          ⟨fun hz => hz.unique (hchosen hsome), fun hz => hz ▸ hchosen hsome⟩
        recorded := fun x y hx hy hne => (rivals_cases hwell hs hx hy hne).imp_left
          fun ⟨c, hstate, hla, hclash⟩ => ⟨c, (mem_conflicts_iff hwell h).mpr
            ⟨st, hstate ▸ hs, hla ▸ ha, hclash⟩, hstate, hla⟩ }
  · obtain ⟨st, hs, ha, hclash⟩ := (mem_conflicts_iff hwell h).mp hc
    obtain ⟨x, y, hrivals⟩ := hclash.exists_rivals hwell hs
    exact ⟨st, x, y, hs, ha, hclash, hrivals⟩
  · rw [findingsOf_grammarConflict h]
    exact reports_conflictFindings (nodup_conflicts_of_build h)

/-- A grammar of sums that does not say how they are grouped. -/
def sumDraft : Draft :=
  { stamp := 0
    symbols := #[{ index := 0, name := eoiName, kind := .terminal },
      { index := 1, name := "plus", kind := .terminal },
      { index := 2, name := "number", kind := .terminal },
      { index := 3, name := "sum", kind := .nonterminal }]
    rules := #[{ left := 3, right := [{ target := 3 }, { target := 1 }, { target := 3 }] },
      { left := 3, right := [{ target := 2 }] }]
    inputs := #[{ target := 3, hasEoi := true }] }

theorem sumDraft_reached : sumDraft.Reached := by
  have hplus : (Draft.new 0).addTerminal "plus" none none
      = .ok (⟨0, 1⟩, { Draft.new 0 with symbols := sumDraft.symbols.take 2 }) := by
    with_unfolding_all rfl
  have hnumber : { Draft.new 0 with symbols := sumDraft.symbols.take 2 }.addTerminal "number" none
      none = .ok (⟨0, 2⟩, { Draft.new 0 with symbols := sumDraft.symbols.take 3 }) := by
    with_unfolding_all rfl
  have hsum : { Draft.new 0 with symbols := sumDraft.symbols.take 3 }.addNonterminal "sum" none none
      = .ok (⟨0, 3⟩, { sumDraft with rules := #[], inputs := #[] }) := by
    with_unfolding_all rfl
  have hinput : { sumDraft with rules := #[], inputs := #[] }.addInput ⟨0, 3⟩ true none
      = .ok { sumDraft with rules := #[] } := rfl
  have hsums : { sumDraft with rules := #[] }.addRule ⟨0, 3⟩ [⟨0, 3⟩, ⟨0, 1⟩, ⟨0, 3⟩]
      = .ok (0, { sumDraft with rules := sumDraft.rules.take 1 }) := rfl
  have hnumbers : { sumDraft with rules := sumDraft.rules.take 1 }.addRule ⟨0, 3⟩ [⟨0, 2⟩]
      = .ok (1, sumDraft) := rfl
  have hsymbols := ((Draft.Reached.new 0).terminal hplus).terminal hnumber |>.nonterminal hsum
  exact ((hsymbols.input hinput).addRule hsums).addRule hnumbers

/-- What is built for sums: one conflict, which the tables settle by shifting, and one finding. -/
theorem build_sumDraft : ∃ t ds d, build sumDraft.freeze {} = .ok (t, ds) ∧
    t.conflicts = [⟨4, 1, .shiftReduce .shiftByDefault, [0]⟩] ∧ t.action 4 1 = .shift 3 ∧
    ds = [d] ∧ d.kind = .grammarConflict ∧ d.severity = .warning := by
  have heval : (build sumDraft.freeze {}).toOption.map (fun r =>
      (r.1.conflicts, r.1.action 4 1, r.2.map fun d => (d.kind, d.severity))) =
      some ([⟨4, 1, .shiftReduce .shiftByDefault, [0]⟩], .shift 3,
        [(.grammarConflict, .warning)]) := by
    decide +kernel
  cases hbuild : build sumDraft.freeze {} with
  | error e =>
    rw [hbuild] at heval
    cases heval
  | ok r =>
    simp only [hbuild, Except.toOption, Option.map_some, Option.some.injEq, Prod.mk.injEq] at heval
    obtain ⟨hconflicts, haction, hds⟩ := heval
    obtain ⟨d, hds, hd⟩ := List.map_eq_singleton_iff.mp hds
    exact ⟨r.1, r.2, d, rfl, hconflicts, haction, hds, Prod.mk.inj hd⟩

/-- After two summands a sum may go on or be reduced.  Without priorities it goes on, and a warning
tells of that. -/
theorem conflicts_reported_sum : ∃ t ds st, build sumDraft.freeze {} = .ok (t, ds) ∧
    (automatonOf sumDraft.freeze).states[4]? = some st ∧
    Allows sumDraft.freeze 4 st 1 (.reduce 0) ∧ Chooses sumDraft.freeze 4 st 1 (.shift 3) ∧
    ∃ d, findingsOf .grammarConflict ds = [d] ∧ d.severity = .warning := by
  obtain ⟨t, ds, d, hbuild, hconflicts, haction, rfl, hkind, -⟩ := build_sumDraft
  obtain ⟨hverdict, hrivals, keys, -, hkeys, hreports⟩ :=
    conflicts_reported ⟨sumDraft, sumDraft_reached, rfl⟩ hbuild
  obtain ⟨st, x, y, hs, hlt, hclash, -⟩ := hrivals _ (hconflicts ▸ List.mem_singleton_self _)
  have hfindings : findingsOf .grammarConflict [d] = [d] := by simp [findingsOf, hkind]
  cases hclash with
  | undeclared hrule hshift _ =>
    refine ⟨t, _, st, hbuild, hs, hrule.1,
      ((hverdict 4 st 1 hs hlt).chosen ⟨_, hshift⟩ _).mpr haction.symm, d, hfindings, ?_⟩
    rw [hfindings] at hreports
    cases hreports with
    | @cons key _ _ _ hreports htail =>
      obtain ⟨c, hc, rfl⟩ := (hkeys key).mp (List.mem_cons_self ..)
      obtain rfl := List.mem_singleton.mp (hconflicts ▸ hc)
      exact hreports.severity

/-- A conflict need not be an error: the one of sums is settled by shifting, and no finding about it
is an error. -/
theorem conflict_without_error : sumDraft.freeze.Frozen ∧ ∃ t ds,
    build sumDraft.freeze {} = .ok (t, ds) ∧ t.conflicts ≠ [] ∧ ∀ d ∈ ds, d.severity ≠ .error := by
  obtain ⟨t, ds, d, hbuild, hconflicts, -, rfl, -, hseverity⟩ := build_sumDraft
  exact ⟨⟨sumDraft, sumDraft_reached, rfl⟩, t, _, hbuild, by simp [hconflicts],
    by simp [hseverity]⟩

end Lr

end GrammarTables
