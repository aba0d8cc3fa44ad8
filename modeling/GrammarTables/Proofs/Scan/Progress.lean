import GrammarTables.Scan.Scanner
import Mathlib.Tactic.ByContra
/-
# Progress of a scanner

What a call does depends on everything but the counters (`Scanner.Agrees.next`).  A call that
produces a token moves on, or every further call produces the same token again
(`Scanner.remaining_next`).  So a scanner that supplies a token (`Scanner.Supplies`) cannot stand
still before it (`Scanner.not_supplies_of_agrees`).
-/

namespace GrammarTables.Scan

/-! ## 1. Calls -/

/-- What happens while a call walks through the automaton. -/
def walkEvents (sc : Scanner) (start : Nat) : List ScanEvent :=
  .started sc.state start sc.position ::
    (walk sc.table start 0 0 [] sc.rest).marks.reverse.map fun m =>
      .marked m.bytes m.action m.state

/-- A call that found a match; besides, only counters change. -/
theorem next_of_match {sc : Scanner} {start : Nat} {m : Match} (hdone : sc.done = false)
    (hend : sc.atEnd = false) (hmap : sc.table.stateMap[sc.state]? = some start)
    (hmatch : (walk sc.table start 0 0 [] sc.rest).match? = some m) :
    ∃ sc' : Scanner, { sc' with stats := sc.stats } = sc ∧
      sc.next = if m.action = 0 then sc'.finish (walkEvents sc start)
        else sc'.produce m (walkEvents sc start) := by
  refine ⟨if m.fellBack then { sc with stats.backtracks := sc.stats.backtracks + 1 } else sc,
    ?_, ?_⟩
  · split <;> rfl
  · unfold Scanner.next
    rw [hdone, hend, hmap]
    simp only [hmatch]
    rfl

theorem next_of_none {sc : Scanner} {start : Nat} (hdone : sc.done = false)
    (hend : sc.atEnd = false) (hmap : sc.table.stateMap[sc.state]? = some start)
    (hmatch : (walk sc.table start 0 0 [] sc.rest).match? = none) :
    sc.next = sc.skip (walkEvents sc start) := by
  unfold Scanner.next
  rw [hdone, hend, hmap]
  simp only [hmatch]
  rfl

namespace Scanner

/-- Scanners that differ in their counters only. -/
def Agrees (sc sc' : Scanner) : Prop := { sc with stats := sc'.stats } = sc'

theorem Agrees.trans {sc sc' sc'' : Scanner} (h : sc.Agrees sc') (h' : sc'.Agrees sc'') :
    sc.Agrees sc'' := by
  unfold Agrees at *
  rw [← h', ← h]

/-- **What a call does.** -/
inductive Called (sc : Scanner) : Scanned → Prop
  | stopped (hdone : sc.done = true) : Called sc ⟨.ok none, sc, []⟩
  | afterEnd (hdone : sc.done = false) (hend : sc.atEnd = true) : Called sc (sc.finish [])
  | noStart (hdone : sc.done = false) (hend : sc.atEnd = false)
      (hmap : sc.table.stateMap[sc.state]? = none) : Called sc ⟨.error .noStart, sc, []⟩
  | finish {sc' : Scanner} {start : Nat} {m : Match} {events : List ScanEvent}
      (hdone : sc.done = false) (hend : sc.atEnd = false)
      (hmap : sc.table.stateMap[sc.state]? = some start)
      (hmatch : (walk sc.table start 0 0 [] sc.rest).match? = some m) (hsc : sc'.Agrees sc)
      (haction : m.action = 0) : Called sc (sc'.finish events)
  | produce {sc' : Scanner} {start : Nat} {m : Match} {events : List ScanEvent}
      (hdone : sc.done = false) (hend : sc.atEnd = false)
      (hmap : sc.table.stateMap[sc.state]? = some start)
      (hmatch : (walk sc.table start 0 0 [] sc.rest).match? = some m) (hsc : sc'.Agrees sc)
      (haction : m.action ≠ 0) : Called sc (sc'.produce m events)
  | skip {start : Nat} {events : List ScanEvent} (hdone : sc.done = false)
      (hend : sc.atEnd = false) (hmap : sc.table.stateMap[sc.state]? = some start)
      (hmatch : (walk sc.table start 0 0 [] sc.rest).match? = none) : Called sc (sc.skip events)

theorem called_next (sc : Scanner) : sc.Called sc.next := by
  cases hdone : sc.done with
  | true =>
    rw [show sc.next = ⟨.ok none, sc, []⟩ by simp [next, hdone]]
    exact .stopped hdone
  | false =>
    cases hend : sc.atEnd with
    | true =>
      rw [show sc.next = sc.finish [] by simp [next, hdone, hend]]
      exact .afterEnd hdone hend
    | false =>
      cases hmap : sc.table.stateMap[sc.state]? with
      | none =>
        rw [show sc.next = ⟨.error .noStart, sc, []⟩ by simp [next, hdone, hend, hmap]]
        exact .noStart hdone hend hmap
      | some start =>
        cases hmatch : (walk sc.table start 0 0 [] sc.rest).match? with
        | none =>
          rw [next_of_none hdone hend hmap hmatch]
          exact .skip hdone hend hmap hmatch
        | some m =>
          obtain ⟨sc', hsc, hnext⟩ := next_of_match hdone hend hmap hmatch
          rw [hnext]
          split
          · rename_i haction
            exact .finish hdone hend hmap hmatch hsc haction
          · rename_i haction
            exact .produce hdone hend hmap hmatch hsc haction

/-- A call changes neither the table nor the lexer state. -/
theorem keeps_next (sc : Scanner) :
    sc.next.scanner.table = sc.table ∧ sc.next.scanner.state = sc.state := by
  have hcalled := sc.called_next
  generalize sc.next = scanned at hcalled ⊢
  cases hcalled with
  | stopped | afterEnd | noStart => exact ⟨rfl, rfl⟩
  | finish _ _ _ _ hsc _ | produce _ _ _ _ hsc _ =>
    rw [← hsc]
    exact ⟨rfl, rfl⟩
  | skip =>
    unfold Scanner.skip
    split <;> exact ⟨rfl, rfl⟩

/-- **Counters do not matter.** -/
theorem Agrees.next {sc sc' : Scanner} (h : sc.Agrees sc') :
    sc.next.result = sc'.next.result ∧ sc.next.scanner.Agrees sc'.next.scanner := by
  obtain ⟨table, rest, position, state, atEnd, done, stats⟩ := sc
  unfold Agrees at h
  rw [← h]
  cases done with
  | true => exact ⟨rfl, rfl⟩
  | false =>
    cases atEnd with
    | true => exact ⟨rfl, rfl⟩
    | false =>
      unfold Scanner.next
      simp only [Bool.false_eq_true, if_false]
      cases table.stateMap[state]? with
      | none => exact ⟨rfl, rfl⟩
      | some start =>
        simp only
        cases (walk table start 0 0 [] rest).match? with
        | none => cases rest <;> exact ⟨rfl, rfl⟩
        | some m =>
          simp only
          by_cases haction : m.action = 0
          · simp only [haction, if_true]
            cases m.fellBack <;> exact ⟨rfl, rfl⟩
          · simp only [haction, if_false]
            cases m.fellBack <;> exact ⟨rfl, rfl⟩

/-! ## 2. Progress -/

/-- How many calls can produce a token, as long as each of them moves on. -/
def remaining (sc : Scanner) : Nat :=
  if sc.done then 0 else if sc.atEnd then 1 else sc.rest.length + 2

theorem remaining_le (sc : Scanner) : sc.remaining ≤ sc.rest.length + 2 := by
  unfold remaining
  split
  · omega
  · split <;> omega

theorem remaining_pos {sc : Scanner} (hdone : sc.done = false) : 0 < sc.remaining := by
  cases hend : sc.atEnd <;> simp [remaining, hdone, hend]

/-- A match moves on, or leaves everything but the counters as it was. -/
theorem remaining_produce {sc : Scanner} (m : Match) (events : List ScanEvent)
    (hdone : sc.done = false) (hend : sc.atEnd = false) :
    (sc.produce m events).scanner.remaining < sc.remaining ∨
      sc.Agrees (sc.produce m events).scanner := by
  have hsc : sc.remaining = sc.rest.length + 2 := by simp [remaining, hdone, hend]
  have hproduced : (sc.produce m events).scanner.remaining =
      if m.atEnd then 1 else (sc.rest.drop m.length).length + 2 := by
    simp [produce, consume, remaining, hdone]
  rw [hsc, hproduced]
  by_cases hatEnd : m.atEnd = true
  · simp [hatEnd]
  · simp only [hatEnd, Bool.false_eq_true, if_false, List.length_drop]
    by_cases hmoved : sc.rest.length - m.length < sc.rest.length
    · exact Or.inl (by omega)
    · have hnone : m.length = 0 ∨ sc.rest = [] := by
        rw [← List.length_eq_zero_iff]
        omega
      have htake : sc.rest.take m.length = [] := by
        rcases hnone with h | h <;> simp [h]
      have hdrop : sc.rest.drop m.length = sc.rest := by
        rcases hnone with h | h <;> simp [h]
      refine Or.inr ?_
      simp [Agrees, produce, consume, htake, hdrop, Position.advanceAll, hatEnd, ← hend]

/-- **A call that produces a token moves on**, or leaves everything but the counters as it was. -/
theorem remaining_next {sc : Scanner} {token : Token} (h : sc.next.result = .ok (some token)) :
    sc.next.scanner.remaining < sc.remaining ∨ sc.Agrees sc.next.scanner := by
  have hcalled := sc.called_next
  generalize sc.next = scanned at h hcalled ⊢
  cases hcalled with
  | stopped | noStart => cases h
  | afterEnd hdone _ => exact Or.inl (remaining_pos hdone)
  | finish hdone _ _ _ _ _ => exact Or.inl (remaining_pos hdone)
  | @produce sc' start m events hdone hend hmap hmatch hsc haction =>
    have hsame : sc'.remaining = sc.remaining := by rw [← hsc]; rfl
    have hdone' : sc'.done = false := by rw [← hsc] at hdone; exact hdone
    have hend' : sc'.atEnd = false := by rw [← hsc] at hend; exact hend
    rw [← hsame]
    refine (remaining_produce m events hdone' hend').imp_right fun hagrees => ?_
    exact Agrees.trans (by rw [Agrees, ← hsc]) hagrees
  | skip =>
    unfold Scanner.skip at h
    split at h <;> cases h

/-! ## 3. Streams of tokens -/

/-- **A scanner supplies some tokens**, one after the other and with layout between them.  The
symbols from `terminals` on are those of layout. -/
inductive Supplies (terminals : Nat) : Scanner → List Token → Prop
  | nil {sc : Scanner} : Supplies terminals sc []
  | layout {sc : Scanner} {token : Token} {tokens : List Token} :
      sc.next.result = .ok (some token) → terminals ≤ token.symbol →
      Supplies terminals sc.next.scanner tokens → Supplies terminals sc tokens
  | token {sc : Scanner} {token : Token} {tokens : List Token} :
      sc.next.result = .ok (some token) → token.symbol < terminals →
      Supplies terminals sc.next.scanner tokens → Supplies terminals sc (token :: tokens)

/-- The tokens other than layout that come with the next `n` calls, up to the first error. -/
def tokens (terminals : Nat) : Nat → Scanner → List Token
  | 0, _ => []
  | n + 1, sc =>
    match sc.next.result with
    | .ok (some token) =>
      if token.symbol < terminals then token :: tokens terminals n sc.next.scanner
      else tokens terminals n sc.next.scanner
    | .ok none | .error _ => []

theorem supplies_tokens (terminals n : Nat) (sc : Scanner) :
    Supplies terminals sc (tokens terminals n sc) := by
  induction n generalizing sc with
  | zero => exact .nil
  | succ n ih =>
    unfold tokens
    split
    · rename_i token hresult
      split
      · rename_i hlt
        exact .token hresult hlt (ih _)
      · rename_i hge
        exact .layout hresult (Nat.not_lt.mp hge) (ih _)
    · exact .nil
    · exact .nil

/-- A scanner that produces the same layout again and again supplies nothing. -/
theorem not_supplies_of_agrees {terminals : Nat} {sc sc' : Scanner} {layout token : Token}
    {tokens : List Token} (hlayout : sc.next.result = .ok (some layout))
    (hsymbol : terminals ≤ layout.symbol) (hstuck : sc.Agrees sc.next.scanner)
    (hagrees : sc.Agrees sc') : ¬ Supplies terminals sc' (token :: tokens) := by
  intro h
  generalize htokens : token :: tokens = supplied at h
  induction h with
  | nil => cases htokens
  | layout _ _ _ ih => exact ih (hstuck.trans hagrees.next.2) htokens
  | token hresult hlt _ _ =>
    rw [← hagrees.next.1, hlayout] at hresult
    obtain rfl := Option.some.inj (Except.ok.inj hresult)
    exact absurd hsymbol (Nat.not_le.mpr hlt)

end Scanner

end GrammarTables.Scan
