import GrammarTables.Proofs.Lexical.Lossless
import GrammarTables.Proofs.Scan.Overlap
/-
# Fallbacks are remembered exactly where they are needed

A cell remembers an acceptance to fall back to if and only if some word of classes fails from the
state that it goes on to (`Matcher.cell_eq_backtrack_iff`).  Where no word fails nothing has to be
remembered: whatever follows, the scanner comes to a cell that accepts (`LexTable.Settles`).  This
needs that the end of the input is never read, so that it cannot be passed by going round a loop.
-/

namespace GrammarTables.Lexical

/-! ## 1. Cells that fall back -/

/-- **A fallback is needed**: the state accepts a rule before the class, and goes on to a state from
which some word fails. -/
def Matcher.NeedsFallback (m : Matcher) (s k action next : Nat) : Prop :=
  ∃ r, action = r + 1 ∧ m.acceptAt s k = some r ∧ m.dfa.step s k = some next ∧
    ∃ w, m.FailsOn next w

/-- **A cell falls back where it needs to.** -/
theorem Matcher.cell_eq_backtrack_iff {m : Matcher}
    (hstep : ∀ {s k t : Nat}, m.dfa.step s k = some t → t < m.dfa.size) {s k action next : Nat} :
    m.cell m.mayFail s k = .backtrack action next ↔ m.NeedsFallback s k action next := by
  unfold Matcher.cell NeedsFallback
  cases hgo : m.dfa.step s k with
  | none =>
    cases m.acceptAt s k with
    | none => simp only; split <;> simp
    | some r => simp
  | some t =>
    cases m.acceptAt s k with
    | none => simp
    | some r =>
      have hmarked := mayFail_iff hstep (hstep hgo)
      simp only
      split
      · rename_i hfails
        simp only [Cell.backtrack.injEq, Option.some.injEq]
        constructor
        · rintro ⟨rfl, rfl⟩
          exact ⟨r, rfl, rfl, rfl, hmarked.mp hfails⟩
        · rintro ⟨_, rfl, rfl, rfl, -⟩
          exact ⟨rfl, rfl⟩
      · rename_i hfails
        simp only [reduceCtorEq, Option.some.injEq, false_iff]
        rintro ⟨_, -, -, rfl, hw⟩
        exact hfails (hmarked.mpr hw)

/-! ## 2. Scanning that cannot fail -/

/-- **A cell of an unmarked state** accepts a rule, goes on to an unmarked state, or is where a
start meets the end of the input. -/
theorem Matcher.cell_of_unmarked {m : Matcher}
    (hlt : ∀ {s k t : Nat}, m.dfa.step s k = some t → t < m.dfa.size) {s k : Nat}
    (hs : s < m.dfa.size) (hk : k < m.classes) (hunmarked : m.mayFail.getD s false = false) :
    (∃ r, (m.cell m.mayFail s k).action? = some (r + 1)) ∨
    (∃ next, m.cell m.mayFail s k = .goto next ∧ m.dfa.step s k = some next ∧
      m.mayFail.getD next false = false) ∨
    (m.cell m.mayFail s k = .accept 0 ∧ k = eoiClass ∧ s ∈ m.dfa.starts) := by
  obtain ⟨hstuck, hnext⟩ := mayFail_step hs hk hunmarked
  cases hstep : m.dfa.step s k with
  | none =>
    cases haccept : m.acceptAt s k with
    | some r => exact Or.inl ⟨r, Scan.action?_cell.mpr ⟨haccept, by simp [hstep]⟩⟩
    | none =>
      -- the state is not stuck, so it is a start
      have hend : k = eoiClass ∧ s ∈ m.dfa.starts := by
        by_contra hnot
        exact Bool.eq_false_iff.mp hstuck (stuckAt_iff.mpr ⟨haccept, hstep, hnot⟩)
      refine Or.inr (Or.inr ⟨?_, hend⟩)
      rw [cell, hstep, haccept]
      simp [hend, Dfa.isStart]
  | some next =>
    cases haccept : m.acceptAt s k with
    | some r =>
      by_cases hmarked : m.mayFail.getD next false = true
      · refine Or.inl ⟨r, Scan.action?_cell.mpr ⟨haccept, fun t ht => ?_⟩⟩
        rwa [← Option.some.inj (hstep.symm.trans ht)]
      · refine Or.inr (Or.inl ⟨next, ?_, rfl, Bool.eq_false_iff.mpr hmarked⟩)
        rw [cell, hstep, haccept]
        exact if_neg hmarked
    | none =>
      refine Or.inr (Or.inl ⟨next, ?_, rfl, hnext next (hlt hstep) haccept hstep⟩)
      rw [cell, hstep, haccept]

/-- **Scanning settles**: from a state, over code points that follow up to the end of the input, the
cells go on until one accepts an action, at once or to fall back to. -/
inductive LexTable.Settles (t : LexTable) (action : Nat) : Nat → List Nat → Prop
  | atEnd {s : Nat} {cell : Cell} : t.cell? s eoiClass = some cell →
      cell.action? = some action → Settles t action s []
  | atChar {s c : Nat} {cell : Cell} (cs : List Nat) : t.cell? s (t.classOf c) = some cell →
      cell.action? = some action → Settles t action s (c :: cs)
  | goto {s next c : Nat} {cs : List Nat} : t.cell? s (t.classOf c) = some (.goto next) →
      Settles t action next cs → Settles t action s (c :: cs)

section Settles

variable {t : LexTable} {m : Matcher} {classOf : Nat → Nat} {rules : Nat}
  (ht : t.Compresses m classOf) (hm : m.Grounded rules)
  (hclass : ∀ c ≤ maxCodePoint, classOf c ≠ eoiClass ∧ classOf c < m.classes)
  (heoi : ∀ s < m.dfa.size, m.dfa.step s eoiClass = none) (hpos : eoiClass < m.classes)

include ht hm hclass heoi hpos in
/-- **Scanning settles where no word fails.**  The action is that of a rule, unless the state is a
start and nothing follows. -/
theorem LexTable.Compresses.exists_settles {cs : List Nat} (hcs : ∀ c ∈ cs, c ≤ maxCodePoint) :
    ∀ {s : Nat}, s < m.dfa.size → m.mayFail.getD s false = false →
      ∃ action, t.Settles action s cs ∧ (action = 0 → s ∈ m.dfa.starts ∧ cs = []) := by
  induction cs with
  | nil =>
    intro s hs hunmarked
    have hcell := ht.eoi s (ht.states.symm ▸ hs)
    rcases Matcher.cell_of_unmarked hm.step_lt hs hpos hunmarked with
      ⟨r, hr⟩ | ⟨next, -, hstep, -⟩ | ⟨hzero, -, hstart⟩
    · exact ⟨r + 1, .atEnd hcell hr, by simp⟩
    · rw [heoi s hs] at hstep
      cases hstep
    · rw [hzero] at hcell
      exact ⟨0, .atEnd hcell rfl, fun _ => ⟨hstart, rfl⟩⟩
  | cons c cs ih =>
    intro s hs hunmarked
    obtain ⟨hc, hcs⟩ := List.forall_mem_cons.mp hcs
    obtain ⟨hne, hk⟩ := hclass c hc
    have hcell := ht.char s (ht.states.symm ▸ hs) c hc
    rcases Matcher.cell_of_unmarked hm.step_lt hs hk hunmarked with
      ⟨r, hr⟩ | ⟨next, hgoto, hstep, hnext⟩ | ⟨-, hend, -⟩
    · exact ⟨r + 1, .atChar cs hcell hr, by simp⟩
    · -- what the next state settles on is the action of a rule, since it is no start
      rw [hgoto] at hcell
      obtain ⟨action, hsettles, hzero⟩ := ih hcs (hm.step_lt hstep) hnext
      exact ⟨action, .goto hcell hsettles, fun h => absurd (hzero h).1 (hm.not_start hstep)⟩
    · exact absurd hend hne

end Settles

end GrammarTables.Lexical

namespace GrammarTables.Scan

open Lexical

/-! ## 3. The tables of a grammar -/

section Plan

variable {g : Grammar} {roles : List Role}

theorem planFor_classOf {c : Nat} (hc : c ≤ maxCodePoint) :
    (planFor g roles).alphabet.classOf c ≠ eoiClass ∧
      (planFor g roles).alphabet.classOf c < (planFor g roles).matcher.classes := by
  obtain ⟨_, _, _, _, sets, h⟩ := exists_parts g roles
  rw [planFor_classes, h.plan_eq]
  obtain ⟨hpos, hlt⟩ := Alphabet.classOf_of_lt sets (Nat.lt_succ_of_le hc : c < endMark)
  exact ⟨Nat.ne_of_gt hpos, hlt⟩

theorem planFor_eoiClass_lt : eoiClass < (planFor g roles).matcher.classes := by
  obtain ⟨_, _, _, _, sets, h⟩ := exists_parts g roles
  rw [planFor_classes, h.plan_eq]
  exact Alphabet.count_pos sets

/-- No state reads the end of the input if no rule does: each is the state after a word. -/
theorem planFor_eoi_unread (hfree : ∀ e, .matched e ∈ roles → (Expr.seq e.body).EoiFree) :
    ∀ s < (planFor g roles).matcher.dfa.size,
      (planFor g roles).matcher.dfa.step s eoiClass = none := by
  intro s hs
  obtain ⟨q, start, w, hstart, hw, hat⟩ := planFor_word hs
  exact planFor_step_eoi hfree (List.mem_of_getElem? hstart) hw hat

end Plan

/-- **Fallbacks are remembered exactly where they are needed.**  Sweeps over the states come to rest
at the marks, which are on the states from which some word of classes fails.  The cells that
remember an acceptance are those before which a rule is accepted and after which some word fails.
From a state that is not marked, whatever follows up to the end of the input, scanning comes to a
cell that accepts. -/
theorem backtracking_exact {g : Grammar} (hg : g.Frozen) (options : LexOptions)
    (heoi : ∀ r ∈ g.lexicalRules, ¬ UsesEoi (patternTable g).1 r.regex.root) :
    let p := (plan g options.maxRepeat).1
    let t := (build g options).1
    RestsAt p.matcher.sweep (Array.replicate p.matcher.dfa.size false) p.matcher.mayFail ∧
    (∀ s < p.matcher.dfa.size,
      (p.matcher.mayFail[s]? = some true ↔ ∃ w, p.matcher.FailsOn s w)) ∧
    (∀ s < t.states, ∀ action next,
      (∀ c ≤ maxCodePoint, t.cell? s (t.classOf c) = some (.backtrack action next) ↔
        p.matcher.NeedsFallback s (p.alphabet.classOf c) action next) ∧
      (t.cell? s eoiClass = some (.backtrack action next) ↔
        p.matcher.NeedsFallback s eoiClass action next)) ∧
    ∀ s < t.states, p.matcher.mayFail[s]? = some false →
      ∀ cs, (∀ c ∈ cs, c ≤ maxCodePoint) →
        ∃ action, t.Settles action s cs ∧ (action = 0 → s ∈ p.matcher.dfa.starts ∧ cs = []) := by
  intro p t
  have hplan : p = planFor g (rolesOf g options.maxRepeat) := plan_eq g options.maxRepeat
  have hgrounded : p.matcher.Grounded (rolesOf g options.maxRepeat).length :=
    hplan ▸ planFor_grounded g _
  have hlossless : t.Compresses p.matcher p.alphabet.classOf := (build_lossless g options).1
  refine ⟨Matcher.restsAt_sweep hgrounded.step_lt, fun s hs => ?_, fun s hs action next => ?_,
    fun s hs hunmarked cs hcs => ?_⟩
  · rw [← Matcher.mayFail_iff hgrounded.step_lt hs, ← Graph.marked_iff_getD, Graph.Marked]
  · refine ⟨fun c hc => ?_, ?_⟩
    · rw [hlossless.char s hs c hc, Option.some.injEq,
        Matcher.cell_eq_backtrack_iff hgrounded.step_lt]
    · rw [hlossless.eoi s hs, Option.some.injEq,
        Matcher.cell_eq_backtrack_iff hgrounded.step_lt]
  · have hunread : ∀ s < p.matcher.dfa.size, p.matcher.dfa.step s eoiClass = none :=
      hplan ▸ planFor_eoi_unread fun e he => eoiFree_of_mem_rolesOf hg heoi he
    refine hlossless.exists_settles hgrounded (fun c hc => hplan ▸ planFor_classOf hc) hunread
      (hplan ▸ planFor_eoiClass_lt) hcs (hlossless.states ▸ hs) ?_
    rw [Array.getD_eq_getD_getElem?, hunmarked]
    rfl

/-- A grammar for a scanner: `a`, and a word that begins with it. -/
def retryDraft : Draft :=
  { stamp := 0
    symbols := #[{ index := 0, name := eoiName, kind := .terminal },
      { index := 1, name := "a", kind := .terminal },
      { index := 2, name := "abc", kind := .terminal }]
    states := #[{ name := "initial" }]
    lexicalRules := #[
      { kind := .normal, symbol := 1, regex := (Regex.parse "a" none).1, states := [0] },
      { kind := .normal, symbol := 2, regex := (Regex.parse "abc" none).1, states := [0] }] }

theorem retryDraft_reached : retryDraft.Reached := by
  have ha : (Draft.new 0).addTerminal "a" none none
      = .ok (⟨0, 1⟩, { Draft.new 0 with symbols := retryDraft.symbols.take 2 }) := by
    cbv
  have habc : { Draft.new 0 with symbols := retryDraft.symbols.take 2 }.addTerminal "abc" none none
      = .ok (⟨0, 2⟩, { Draft.new 0 with symbols := retryDraft.symbols }) := by
    cbv
  have hstate : { Draft.new 0 with symbols := retryDraft.symbols }.addState "initial" none
      = .ok (⟨0, 0⟩, { retryDraft with lexicalRules := #[] }) := by
    cbv
  have hshort : { retryDraft with lexicalRules := #[] }.addLexicalRule .normal ⟨0, 1⟩
      (Regex.parse "a" none).1 [⟨0, 0⟩] 0 none none
      = .ok (⟨0, 0⟩, { retryDraft with lexicalRules := retryDraft.lexicalRules.take 1 }) := by
    cbv
  have hlong : { retryDraft with
        lexicalRules := retryDraft.lexicalRules.take 1 }.addLexicalRule .normal ⟨0, 2⟩
      (Regex.parse "abc" none).1 [⟨0, 0⟩] 0 none none
      = .ok (⟨0, 1⟩, retryDraft) := by
    cbv
  have hstates := ((Draft.Reached.new 0).terminal ha).terminal habc |>.state hstate
  exact (hstates.lexicalRule (.parse "a" none) hshort).lexicalRule (.parse "abc" none) hlong

theorem retryDraft_not_usesEoi : ∀ r ∈ retryDraft.freeze.lexicalRules,
    ¬ UsesEoi (patternTable retryDraft.freeze).1 r.regex.root := by
  have hplain : ∀ r ∈ retryDraft.freeze.lexicalRules.toList, ∀ t ∈ r.regex.root.preorder,
      isPlain t = true := by
    decide +kernel
  exact fun r hr => not_usesEoi_of_plain (hplain r (Array.mem_toList_iff.mpr hr))

/-- After `a` the acceptance is remembered before a `b`, since some word fails after `ab`; whatever
comes after `a`, scanning settles on the action of a rule. -/
theorem backtracking_retry : retryDraft.freeze.Frozen ∧
    (∀ r ∈ retryDraft.freeze.lexicalRules,
      ¬ UsesEoi (patternTable retryDraft.freeze).1 r.regex.root) ∧
    (∃ w, (plan retryDraft.freeze 1000).1.matcher.FailsOn 2 w) ∧
    ∀ cs, (∀ c ∈ cs, c ≤ maxCodePoint) →
      ∃ action ≠ 0, (build retryDraft.freeze {}).1.Settles action 1 cs := by
  have hfrozen : retryDraft.freeze.Frozen := ⟨retryDraft, retryDraft_reached, rfl⟩
  obtain ⟨-, -, hcells, hsettles⟩ := backtracking_exact hfrozen {} retryDraft_not_usesEoi
  have hstates : 1 < (build retryDraft.freeze {}).1.states := by decide +kernel
  have hcell : (build retryDraft.freeze {}).1.cell? 1 ((build retryDraft.freeze {}).1.classOf 98)
      = some (.backtrack 1 2) := by
    decide +kernel
  have hunmarked : (plan retryDraft.freeze 1000).1.matcher.mayFail[1]? = some false := by
    decide +kernel
  have hstart : 1 ∉ (plan retryDraft.freeze 1000).1.matcher.dfa.starts := by decide +kernel
  obtain ⟨-, -, -, -, hfails⟩ := ((hcells 1 hstates 1 2).1 98 (by decide)).mp hcell
  refine ⟨hfrozen, retryDraft_not_usesEoi, hfails, fun cs hcs => ?_⟩
  obtain ⟨action, haction, hzero⟩ := hsettles 1 hstates hunmarked cs hcs
  exact ⟨action, fun h => hstart (hzero h).1, haction⟩

end GrammarTables.Scan
