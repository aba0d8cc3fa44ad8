import GrammarTables.Proofs.Lr.Productions
import Mathlib.Logic.Relation
/-
# Derivations and their trees

A sequence of terminals that is derived by replacing nonterminals step by step (`Grammar.Derives`)
has a derivation tree.  What matters of a tree is which rule is applied where (`Shape`); the
sequences of shapes that belong to a sequence of symbols and derive some terminals are built from
left to right (`Grows`).
-/

namespace GrammarTables

/-! ## 1. Replacing nonterminals -/

/-- A nonterminal is replaced by the right side of one of its rules. -/
inductive Grammar.Rewrites (g : Grammar) : List Nat → List Nat → Prop
  | rule {r : Rule} (u v : List Nat) : r ∈ g.ruleList →
      Rewrites g (u ++ r.left :: v) (u ++ (r.right.map (·.target) ++ v))

/-- **One sequence of symbols derives another.** -/
def Grammar.Derives (g : Grammar) : List Nat → List Nat → Prop :=
  Relation.ReflTransGen g.Rewrites

namespace Lr

/-! ## 2. Growing from left to right -/

/-- A derivation tree without tokens and places: which rule is applied where. -/
inductive Shape
  | leaf (symbol : Nat)
  | branch (rule : Nat) (children : List Shape)

/-- **Shapes for a sequence of symbols**, and the terminals that they derive. -/
inductive Grows (p : Productions) : List Nat → List Shape → List Nat → Prop
  | nil : Grows p [] [] []
  | terminal {a : Nat} {xs w : List Nat} {ds : List Shape} : a < p.terminals → Grows p xs ds w →
      Grows p (a :: xs) (.leaf a :: ds) (a :: w)
  | rule {rule x : Nat} {xs u v : List Nat} {children ds : List Shape} : rule ∈ p.rulesOf x →
      Grows p (p.rightOf rule) children u → Grows p xs ds v →
      Grows p (x :: xs) (.branch rule children :: ds) (u ++ v)

namespace Grows

variable {p : Productions} {xs ys w : List Nat} {ds : List Shape}

theorem yields (h : Grows p xs ds w) : p.Yields xs w := by
  induction h with
  | nil => exact .nil
  | terminal ha _ ih => exact .terminal ha ih
  | rule hr _ _ ih₁ ih₂ => exact .rule hr ih₁ ih₂

theorem length_eq (h : Grows p xs ds w) : ds.length = xs.length := by
  induction h with
  | nil => rfl
  | terminal _ _ ih => rw [List.length_cons, List.length_cons, ih]
  | rule _ _ _ _ ih => rw [List.length_cons, List.length_cons, ih]

/-- Shapes derive one sequence of terminals only. -/
theorem word_unique {xs' w' : List Nat} (h : Grows p xs ds w) (h' : Grows p xs' ds w') :
    w = w' := by
  induction h generalizing xs' w' with
  | nil =>
    cases h'
    rfl
  | terminal _ _ ih =>
    cases h' with
    | terminal _ h' => rw [ih h']
  | rule _ _ _ ih₁ ih₂ =>
    cases h' with
    | rule _ h₁ h₂ => rw [ih₁ h₁, ih₂ h₂]

theorem append {ds' : List Shape} {w' : List Nat} (h : Grows p xs ds w) (h' : Grows p ys ds' w') :
    Grows p (xs ++ ys) (ds ++ ds') (w ++ w') := by
  induction h with
  | nil => exact h'
  | terminal ha _ ih => exact .terminal ha ih
  | rule hr hu _ _ ih =>
    rw [List.cons_append, List.cons_append, List.append_assoc]
    exact .rule hr hu ih

theorem of_append (h : Grows p (xs ++ ys) ds w) : ∃ ds₁ ds₂ w₁ w₂, ds = ds₁ ++ ds₂ ∧
    w = w₁ ++ w₂ ∧ Grows p xs ds₁ w₁ ∧ Grows p ys ds₂ w₂ := by
  induction xs generalizing ds w with
  | nil => exact ⟨[], ds, [], w, rfl, rfl, .nil, h⟩
  | cons x xs ih =>
    cases h with
    | terminal ha h =>
      obtain ⟨ds₁, ds₂, w₁, w₂, rfl, rfl, h₁, h₂⟩ := ih h
      exact ⟨_, ds₂, _, w₂, rfl, rfl, .terminal ha h₁, h₂⟩
    | rule hr hu h =>
      obtain ⟨ds₁, ds₂, w₁, w₂, rfl, rfl, h₁, h₂⟩ := ih h
      exact ⟨_, ds₂, _, w₂, rfl, (List.append_assoc ..).symm, .rule hr hu h₁, h₂⟩

/-- Terminals grow by themselves. -/
theorem leaves (hw : ∀ a ∈ w, a < p.terminals) : Grows p w (w.map .leaf) w := by
  induction w with
  | nil => exact .nil
  | cons a w ih =>
    exact .terminal (hw a (List.mem_cons_self ..)) (ih fun b hb => hw b (List.mem_cons_of_mem a hb))

end Grows

section Grammar

variable {g : Grammar}

theorem mem_rulesOf_ofGrammar (hg : g.WellFormed) {rule : Nat} {r : Rule}
    (h : g.ruleList[rule]? = some r) : rule ∈ (Productions.ofGrammar g).rulesOf r.left := by
  have hlt := (List.getElem?_eq_some_iff.mp h).1
  refine (Productions.proper_ofGrammar hg).mem_rulesOf.mpr ⟨?_, Productions.leftOf_rule g h⟩
  rw [Productions.size_ofGrammar]
  exact Nat.lt_add_right _ hlt

/-- **Whatever is derived has a tree.** -/
theorem exists_grows_of_derives (hg : g.WellFormed) {xs w : List Nat}
    (hw : ∀ a ∈ w, a < g.terminals) (h : g.Derives xs w) :
    ∃ ds, Grows (.ofGrammar g) xs ds w := by
  induction h using Relation.ReflTransGen.head_induction_on with
  | refl => exact ⟨_, .leaves hw⟩
  | head hstep _ ih =>
    obtain ⟨ds, hds⟩ := ih
    cases hstep with
    | @rule r u v hr =>
      obtain ⟨rule, hrule⟩ := List.mem_iff_getElem?.mp hr
      obtain ⟨ds₁, ds', w₁, w', -, rfl, h₁, h'⟩ := hds.of_append
      obtain ⟨ds₂, ds₃, w₂, w₃, -, rfl, h₂, h₃⟩ := h'.of_append
      rw [← Productions.rightOf_rule g hrule] at h₂
      exact ⟨_, h₁.append (.rule (mem_rulesOf_ofGrammar hg hrule) h₂ h₃)⟩

end Grammar

end Lr

end GrammarTables
