import GrammarTables.Proofs.Scan.Progress
import Mathlib.Order.MinMax
/-
# Tokens in their order

Positions are ordered, and a scanner only moves forward.  So its tokens lie one after the other
(`Laid`), whatever the tables are and whatever is skipped between them (`Scanner.laid_next`).
-/

namespace GrammarTables

/-! ## 1. The order of positions -/

namespace Position

theorem ble_iff {p q : Position} : p.ble q = true ↔ p.offset < q.offset ∨ p.offset = q.offset ∧
    (p.line < q.line ∨ p.line = q.line ∧ p.column ≤ q.column) := by
  simp only [ble, Ordering.isLE_then_iff_or, Nat.compare_eq_lt, Nat.compare_eq_eq, Nat.isLE_compare]

/-- Positions in the order of `ble`, so that `Span.merge` is made of a minimum and a maximum. -/
instance : LinearOrder Position where
  le p q := p.ble q = true
  le_refl p := ble_iff.mpr (by omega)
  le_trans p q r hpq hqr := by
    have h := ble_iff.mp hpq
    have h' := ble_iff.mp hqr
    exact ble_iff.mpr (by omega)
  le_antisymm p q hpq hqp := by
    have h := ble_iff.mp hpq
    have h' := ble_iff.mp hqp
    cases p
    cases q
    simp only [mk.injEq]
    simp only at h h'
    omega
  le_total p q := by
    have h : p.ble q = true ∨ q.ble p = true := by
      rw [ble_iff, ble_iff]
      omega
    exact h
  toDecidableLE p q := inferInstanceAs (Decidable (p.ble q = true))
  toDecidableEq := inferInstance
  min := earlier
  max := later

theorem le_advance (p : Position) (c : Char) : p ≤ p.advance c := by
  have hsize := c.utf8Size_pos
  refine ble_iff.mpr (Or.inl ?_)
  unfold advance
  split
  · exact Nat.lt_succ_self _
  · exact Nat.lt_add_of_pos_right hsize

theorem le_advanceAll (p : Position) (cs : List Char) : p ≤ p.advanceAll cs := by
  induction cs generalizing p with
  | nil => exact le_rfl
  | cons c cs ih => exact (p.le_advance c).trans (ih (p.advance c))

end Position

/-! ## 2. Tokens one after the other -/

namespace Scan

/-- **Tokens that lie one after the other** between two positions. -/
inductive Laid : Position → List Token → Position → Prop
  | nil {p q : Position} : p ≤ q → Laid p [] q
  | cons {p q : Position} {token : Token} {tokens : List Token} : p ≤ token.span.start →
      token.span.start ≤ token.span.stop → Laid token.span.stop tokens q →
      Laid p (token :: tokens) q

/-- Where some tokens begin, or `p` if there are none. -/
def startOf (tokens : List Token) (p : Position) : Position :=
  tokens.head?.elim p (·.span.start)

/-- Where some tokens end, or `p` if there are none. -/
def stopOf (p : Position) (tokens : List Token) : Position :=
  tokens.getLast?.elim p (·.span.stop)

theorem startOf_append {tokens : List Token} (h : tokens ≠ []) (tokens' : List Token)
    (p q : Position) : startOf (tokens ++ tokens') p = startOf tokens q := by
  cases tokens with
  | nil => exact absurd rfl h
  | cons token tokens => rfl

namespace Laid

variable {p q r : Position} {token : Token} {tokens tokens' : List Token}

theorem of_le (h : Laid q tokens r) (hle : p ≤ q) : Laid p tokens r := by
  cases h with
  | nil hqr => exact .nil (hle.trans hqr)
  | cons hstart hspan hrest => exact .cons (hle.trans hstart) hspan hrest

theorem le (h : Laid p tokens q) : p ≤ q := by
  induction h with
  | nil hle => exact hle
  | cons hstart hspan _ ih => exact hstart.trans (hspan.trans ih)

theorem append (h : Laid p tokens q) (h' : Laid q tokens' r) : Laid p (tokens ++ tokens') r := by
  induction h with
  | nil hle => exact h'.of_le hle
  | cons hstart hspan _ ih => exact .cons hstart hspan (ih h')

theorem split (h : Laid p (tokens ++ tokens') r) : ∃ q, Laid p tokens q ∧ Laid q tokens' r := by
  induction tokens generalizing p with
  | nil => exact ⟨p, .nil le_rfl, h⟩
  | cons token tokens ih =>
    obtain ⟨hstart, hspan, hrest⟩ : _ ∧ _ ∧ Laid token.span.stop (tokens ++ tokens') r := by
      cases h with
      | cons hstart hspan hrest => exact ⟨hstart, hspan, hrest⟩
    obtain ⟨q, hq, hr⟩ := ih hrest
    exact ⟨q, .cons hstart hspan hq, hr⟩

theorem le_startOf (h : Laid p tokens q) : p ≤ startOf tokens q := by
  cases h with
  | nil hle => exact hle
  | cons hstart _ _ => exact hstart

theorem start_le_stop (h : Laid p tokens q) (hmem : token ∈ tokens) :
    token.span.start ≤ token.span.stop := by
  induction h with
  | nil => cases hmem
  | cons _ hspan _ ih =>
    rcases List.mem_cons.mp hmem with rfl | hmem
    · exact hspan
    · exact ih hmem

theorem stop_le (h : Laid p tokens q) (hmem : token ∈ tokens) : token.span.stop ≤ q := by
  induction h with
  | nil => cases hmem
  | cons _ _ hrest ih =>
    rcases List.mem_cons.mp hmem with rfl | hmem
    · exact hrest.le
    · exact ih hmem

/-- A token ends before the tokens that come later. -/
theorem stop_le_startOf (h : Laid p (tokens ++ tokens') q) (hmem : token ∈ tokens) :
    token.span.stop ≤ startOf tokens' q := by
  obtain ⟨m, hm, hq⟩ := h.split
  exact (hm.stop_le hmem).trans hq.le_startOf

theorem startOf_le (h : Laid p (tokens ++ tokens') q) :
    startOf (tokens ++ tokens') q ≤ startOf tokens' q := by
  cases tokens with
  | nil => exact le_rfl
  | cons token tokens =>
    have hmem : token ∈ token :: tokens := List.mem_cons_self ..
    exact (h.start_le_stop (List.mem_append_left _ hmem)).trans (h.stop_le_startOf hmem)

theorem stopOf_le (h : Laid p (tokens ++ tokens') q) : stopOf p tokens ≤ startOf tokens' q := by
  cases hlast : tokens.getLast? with
  | none =>
    rw [stopOf, hlast]
    obtain ⟨m, hm, hq⟩ := h.split
    exact hm.le.trans hq.le_startOf
  | some token =>
    rw [stopOf, hlast]
    exact h.stop_le_startOf (List.mem_of_getLast? hlast)

end Laid

namespace Scanner

theorem laid_finish (sc : Scanner) (events : List ScanEvent) :
    Laid sc.position (sc.finish events).result.toOption.join.toList
      (sc.finish events).scanner.position :=
  .cons le_rfl le_rfl (.nil le_rfl)

theorem laid_produce (sc : Scanner) (m : Match) (events : List ScanEvent) :
    Laid sc.position (sc.produce m events).result.toOption.join.toList
      (sc.produce m events).scanner.position :=
  .cons le_rfl (sc.position.le_advanceAll _) (.nil le_rfl)

theorem laid_skip (sc : Scanner) (events : List ScanEvent) :
    Laid sc.position (sc.skip events).result.toOption.join.toList
      (sc.skip events).scanner.position := by
  unfold skip
  split
  · exact .nil le_rfl
  · exact .nil (sc.position.le_advanceAll _)

/-- **The next token lies between where the scanner was and where it is afterwards**, with any
tables. -/
theorem laid_next (sc : Scanner) :
    Laid sc.position sc.next.result.toOption.join.toList sc.next.scanner.position := by
  have hcalled := sc.called_next
  generalize sc.next = scanned at hcalled ⊢
  cases hcalled with
  | stopped => exact .nil le_rfl
  | afterEnd => exact sc.laid_finish []
  | noStart => exact .nil le_rfl
  | @finish sc' _ _ _ _ _ _ _ hsc _ =>
    have hlaid := sc'.laid_finish
    rw [show sc'.position = sc.position by rw [← hsc]] at hlaid
    exact hlaid _
  | @produce sc' _ m _ _ _ _ _ hsc _ =>
    have hlaid := sc'.laid_produce m
    rw [show sc'.position = sc.position by rw [← hsc]] at hlaid
    exact hlaid _
  | skip => exact sc.laid_skip _

end Scanner

end Scan

end GrammarTables
