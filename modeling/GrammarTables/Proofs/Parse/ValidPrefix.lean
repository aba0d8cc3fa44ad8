import GrammarTables.Proofs.Lr.Sentential
import GrammarTables.Proofs.Parse.Completeness
/-
# What a parse has taken can be continued

The tokens that a parse has taken begin something that the target of its input derives
(`parse_valid_prefix`).  The symbols on the stack do, because they were read by the automaton
(`Lr.Path.exists_derives`), and they derive the leaves of their trees, which are the tokens taken.
Reductions do not matter: they are made on lookaheads that may be too many, or won a conflict, but
they leave the leaves as they are.
-/

namespace GrammarTables.Parse

open Scan (Token Scanner)
open Lr (ParseTable Productions Automaton)

/-! ## 1. The stack -/

section Grammar

variable {g : Grammar} {input : Nat} {i : Input}

/-- The root of a derivation tree derives its leaves. -/
theorem Tree.Derives.derives_leaves (hg : g.WellFormed) {tree : Tree} (h : tree.Derives g) :
    g.Derives [tree.symbol] (tree.leaves.map (·.symbol)) := by
  refine (h.grows hg).derives hg fun x hx => ?_
  obtain rfl := List.mem_singleton.mp hx
  cases h with
  | leaf hlt => exact Nat.lt_of_lt_of_le hlt hg.terminals_le
  | branch hrule hsymbol _ _ => exact hsymbol ▸ (hg.left _ (List.mem_of_getElem? hrule)).2

/-- The symbols of a stack of derivation trees derive its leaves. -/
theorem derives_leavesOf (hg : g.WellFormed) {frames : List Frame}
    (h : ∀ f ∈ frames, f.tree.Derives g) :
    g.Derives (symbolsOf frames).reverse ((leavesOf frames).map (·.symbol)) := by
  induction frames with
  | nil => exact .refl
  | cons f rest ih =>
    rw [symbolsOf, List.map_cons, List.reverse_cons, leavesOf_cons, List.map_append]
    exact (ih fun f' hf' => h f' (List.mem_cons_of_mem f hf')).append
      ((h f (List.mem_cons_self ..)).derives_leaves hg)

/-- **The leaves of the stack begin something that the target derives.** -/
theorem Config.Sound.exists_derives (hg : g.WellFormed) (hi : g.inputList[input]? = some i)
    {c : Config} (h : c.Sound g input) :
    ∃ β, g.Derives [i.target] ((leavesOf c.stack).map (·.symbol) ++ β) := by
  obtain ⟨β, hβ⟩ := h.follows.stacked.path.exists_derives hg h.follows.start hi
  exact ⟨β, hβ.trans ((derives_leavesOf hg h.derives).append .refl)⟩

/-! ## 2. Runs -/

/-- A step that fails takes no token. -/
theorem Config.shifted_of_failed {c : Config} {e : ParseError} {s : Session} {limit : Nat}
    (h : c.step = .failed e s) : c.shifted (limit + 1) = [] := by
  have hnone : c.taken? = none := by
    cases htaken : c.taken? with
    | none => rfl
    | some token =>
      unfold Config.taken? at htaken
      split at htaken
      · rename_i token' hdefault hpeek
        split at htaken
        · rename_i u haction
          obtain ⟨c', hnext⟩ := Config.step_of_shift hdefault hpeek haction
          exact absurd (hnext.symm.trans h) (by simp)
        · cases htaken
        · cases htaken
        · cases htaken
      · cases htaken
  rw [shifted, trace, h, List.filterMap_cons_none hnone]
  rfl

/-- **So do the tokens that a run takes after it.** -/
theorem Config.Sound.exists_derives_shifted (hg : g.WellFormed)
    (hi : g.inputList[input]? = some i) {limit : Nat} {c : Config} (h : c.Sound g input) :
    ∃ β, g.Derives [i.target] ((leavesOf c.stack ++ c.shifted limit).map (·.symbol) ++ β) := by
  induction limit generalizing c with
  | zero =>
    rw [show c.shifted 0 = [] from rfl, List.append_nil]
    exact h.exists_derives hg hi
  | succ n ih =>
    cases hstep : c.step with
    | next c' =>
      obtain ⟨β, hβ⟩ := ih (h.step hg hstep)
      rw [leavesOf_step hstep, List.append_assoc, ← shifted_of_next hstep] at hβ
      exact ⟨β, hβ⟩
    | accepted tree s =>
      rw [shifted_of_accepted hstep, List.append_nil]
      exact h.exists_derives hg hi
    | failed e s =>
      rw [shifted_of_failed hstep, List.append_nil]
      exact h.exists_derives hg hi

/-! ## 3. Parses -/

/-- **What a parse has taken can be continued.**  For all grammars that have tables, with conflicts
and priorities or without, whatever the options and whatever the scanner supplies: after any number
of steps there are symbols of the grammar that continue the tokens taken so far to something that
the target of the input derives.  So a token after which there are none is never taken. -/
theorem parse_valid_prefix (hg : g.Frozen) {options : Lr.ParseOptions} {t : ParseTable}
    {ds : List Diagnostic} (hbuild : Lr.build g options = .ok (t, ds)) {s : Session}
    (hs : s.Reached t) (hi : g.inputList[input]? = some i) :
    (∀ n, ∃ β, (∀ x ∈ β, x < g.grammarSymbols) ∧
      g.Derives [i.target] ((s.shifted input n).map (·.symbol) ++ β)) ∧
    ∀ n token, (∀ β, ¬ g.Derives [i.target] ((s.shifted input n ++ [token]).map (·.symbol) ++ β)) →
      ∀ m, ¬ s.shifted input n ++ [token] <+: s.shifted input m := by
  obtain ⟨rfl, hkeeps⟩ := hs.keeps
  have hwf := hg.wellFormed
  have hserves := Lr.serves_of_build hbuild
  obtain ⟨start, hstart⟩ := exists_start_of_input hwf hi
  have hsound : Config.Sound g input ⟨s, start, []⟩ :=
    ⟨⟨hserves, hkeeps, hstart, .nil⟩, fun f hf => by cases hf⟩
  have hbegins : ∀ n, ∃ β, g.Derives [i.target] ((s.shifted input n).map (·.symbol) ++ β) := by
    intro n
    rw [Session.shifted, Session.trace_eq ((hserves.starts input).trans hstart)]
    exact hsound.exists_derives_shifted hwf hi
  constructor
  · intro n
    obtain ⟨β, hβ⟩ := hbegins n
    refine ⟨β, fun x hx => ?_, hβ⟩
    refine hβ.lt_grammarSymbols hwf (fun y hy => ?_) x (List.mem_append_right _ hx)
    obtain rfl := List.mem_singleton.mp hy
    exact (hwf.inputs i (List.mem_of_getElem? hi)).2
  · rintro n token hnone m ⟨more, hmore⟩
    obtain ⟨β, hβ⟩ := hbegins m
    rw [← hmore, List.map_append, List.append_assoc] at hβ
    exact hnone _ hβ

end Grammar

theorem parse_valid_prefix_list :
    ((Session.new (listTable true) (itemScanner "a b")).shifted 0 3).map (·.symbol) = [1, 1] ∧
      ∃ β, (∀ x ∈ β, x < listDraft.freeze.grammarSymbols) ∧
        listDraft.freeze.Derives [2] ([1, 1] ++ β) := by
  obtain ⟨ds, hbuild⟩ := build_listTable true
  have hinput : listDraft.freeze.inputList[0]? = some { target := 2, hasEoi := true } := by
    decide +kernel
  have htaken :
      ((Session.new (listTable true) (itemScanner "a b")).shifted 0 3).map (·.symbol) = [1, 1] := by
    decide +kernel
  obtain ⟨hbegins, -⟩ := parse_valid_prefix ⟨listDraft, listDraft_reached, rfl⟩ hbuild
    (.new (itemScanner "a b")) hinput
  exact ⟨htaken, htaken ▸ hbegins 3⟩

end GrammarTables.Parse
