import Mathlib.Logic.Relation
import GrammarTables.Proofs.Lr.Productions
/-
# What productions derive

A sequence of symbols derives another if symbols are replaced by the right sides of their
productions, those of inputs included (`Productions.Derives`).  Nothing is asked of the productions
but that their tables belong together and the numbers in them are those of symbols
(`Productions.Indexed`): a symbol may have no productions, or lead back to itself.
-/

namespace GrammarTables.Lr

/-! ## 1. Replacing symbols between others -/

/-- A step that can be taken between other symbols. -/
def Contextual (step : List Nat → List Nat → Prop) : Prop :=
  ∀ ⦃u v : List Nat⦄, step u v → ∀ x y, step (x ++ u ++ y) (x ++ v ++ y)

section Contextual

variable {step : List Nat → List Nat → Prop} {u u' v v' : List Nat}

theorem Contextual.between (hstep : Contextual step) (h : Relation.ReflTransGen step u v)
    (x y : List Nat) : Relation.ReflTransGen step (x ++ u ++ y) (x ++ v ++ y) := by
  induction h with
  | refl => exact .refl
  | tail _ h ih => exact ih.tail (hstep h x y)

theorem Contextual.append (hstep : Contextual step) (h : Relation.ReflTransGen step u u')
    (h' : Relation.ReflTransGen step v v') : Relation.ReflTransGen step (u ++ v) (u' ++ v') := by
  have hleft := hstep.between h [] v
  have hright := hstep.between h' u' []
  rw [List.append_nil, List.append_nil] at hright
  exact hleft.trans hright

end Contextual

namespace Productions

/-! ## 2. Productions whose symbols are known -/

/-- The tables of the productions belong together: each production has a right side, the
productions of a symbol are the ones with that left side, and there is a row for each terminal and
for each symbol of a right side. -/
structure Indexed (p : Productions) : Prop where
  size_right : p.right.size = p.size
  mem_rulesOf : ∀ {rule x : Nat}, rule ∈ p.rulesOf x ↔ rule < p.size ∧ p.leftOf rule = x
  terminals_le : p.terminals ≤ p.byLeft.size
  right_lt : ∀ {rule x : Nat}, x ∈ p.rightOf rule → x < p.byLeft.size

theorem Proper.indexed {p : Productions} (hp : p.Proper) : p.Indexed where
  size_right := hp.size_right
  mem_rulesOf := hp.mem_rulesOf
  terminals_le := Nat.le_trans hp.terminals_le hp.symbols_le
  right_lt hx := Nat.lt_of_lt_of_le (hp.right hx).2 hp.symbols_le

theorem Indexed.leftOf_lt {p : Productions} (hp : p.Indexed) {rule : Nat} (h : rule < p.size) :
    p.leftOf rule < p.byLeft.size :=
  lt_size_of_mem_getD (hp.mem_rulesOf.mpr ⟨h, rfl⟩)

/-! ## 3. Derivations -/

/-- A symbol is replaced by the right side of one of its productions. -/
inductive Rewrites (p : Productions) : List Nat → List Nat → Prop
  | rule {rule : Nat} (u v : List Nat) : rule < p.size →
      Rewrites p (u ++ p.leftOf rule :: v) (u ++ (p.rightOf rule ++ v))

/-- **One sequence of symbols derives another.** -/
def Derives (p : Productions) : List Nat → List Nat → Prop := Relation.ReflTransGen p.Rewrites

variable {p : Productions} {u u' v v' : List Nat}

theorem contextual_rewrites (p : Productions) : Contextual p.Rewrites := by
  rintro _ _ ⟨u, v, hrule⟩ x y
  have h := Rewrites.rule (x ++ u) (v ++ y) hrule
  simpa only [List.append_assoc, List.cons_append] using h

theorem Derives.append (h : p.Derives u u') (h' : p.Derives v v') :
    p.Derives (u ++ v) (u' ++ v') :=
  (contextual_rewrites p).append h h'

theorem derives_nil_of_forall {xs : List Nat} (h : ∀ x ∈ xs, p.Derives [x] []) :
    p.Derives xs [] := by
  induction xs with
  | nil => exact .refl
  | cons x xs ih =>
    exact Derives.append (h x (by simp)) (ih fun y hy => h y (List.mem_cons_of_mem x hy))

/-- A symbol derives what the right side of one of its productions derives. -/
theorem derives_of_rightOf {rule : Nat} (hrule : rule < p.size)
    (h : p.Derives (p.rightOf rule) v) : p.Derives [p.leftOf rule] v := by
  refine .head ?_ h
  simpa using Rewrites.rule (p := p) [] [] hrule

/-- What is yielded is derived, and consists of terminals. -/
theorem Yields.derives (hp : p.Indexed) {xs w : List Nat} (h : p.Yields xs w) :
    p.Derives xs w ∧ ∀ a ∈ w, a < p.terminals := by
  induction h with
  | nil => exact ⟨.refl, by simp⟩
  | @terminal a xs w ha _ ih =>
    exact ⟨Derives.append (u := [a]) .refl ih.1, List.forall_mem_cons.mpr ⟨ha, ih.2⟩⟩
  | @rule rule x xs u v hrule _ _ ih ih' =>
    obtain ⟨hlt, rfl⟩ := hp.mem_rulesOf.mp hrule
    refine ⟨?_, List.forall_mem_append.mpr ⟨ih.2, ih'.2⟩⟩
    exact Derives.append (u := [p.leftOf rule]) (derives_of_rightOf hlt ih.1) ih'.1

end Productions

end GrammarTables.Lr
