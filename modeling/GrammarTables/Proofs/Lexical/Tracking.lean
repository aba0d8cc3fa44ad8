import GrammarTables.Lexical.Plan
import GrammarTables.Proofs.Lexical.Classes
import GrammarTables.Proofs.Lexical.Rules
import GrammarTables.Proofs.Lexical.Subsets
/-
# Reading code points by their classes

The automaton over classes makes the moves of the automaton over sets, with each code point replaced
by its class.  So a state of the deterministic automaton that is reached from a start by the
classes of a word stands for the states that the word leads to (`Tracks`).
-/

namespace GrammarTables.Lexical

/-! ## 1. Paths, one letter at a time -/

namespace Path

variable {ds : SilentMoves} {dr : ReadingMoves}

theorem append_iff {s t : Nat} {u v : List Nat} :
    Path ds dr s (u ++ v) t ↔ ∃ m, Path ds dr s u m ∧ Path ds dr m v t := by
  constructor
  · generalize hw : u ++ v = w
    intro h
    induction h generalizing u with
    | refl s =>
      obtain ⟨rfl, rfl⟩ := List.append_eq_nil_iff.mp hw
      exact ⟨s, .refl s, .refl s⟩
    | silent hm _ ih =>
      obtain ⟨m, h₁, h₂⟩ := ih hw
      exact ⟨m, .silent hm h₁, h₂⟩
    | @read s t' u' c set w hm hc hpath ih =>
      cases u with
      | nil =>
        refine ⟨s, .refl s, ?_⟩
        rw [List.nil_append] at hw
        rw [hw]
        exact .read hm hc hpath
      | cons d u =>
        simp only [List.cons_append, List.cons.injEq] at hw
        obtain ⟨rfl, hw⟩ := hw
        obtain ⟨m, h₁, h₂⟩ := ih hw
        exact ⟨m, .read hm hc h₁, h₂⟩
  · rintro ⟨m, h₁, h₂⟩
    exact h₁.trans h₂

/-- The last letter of a path. -/
theorem snoc_iff {s t c : Nat} {u : List Nat} : Path ds dr s (u ++ [c]) t ↔
    ∃ y set z, Path ds dr s u y ∧ (y, set, z) ∈ dr ∧ c ∈ set ∧ Path ds dr z [] t := by
  rw [append_iff]
  constructor
  · rintro ⟨m, h₁, h₂⟩
    generalize hw : [c] = w at h₂
    induction h₂ generalizing u with
    | refl => cases hw
    | @silent a b t w hm _ ih =>
      have h₁' : Path ds dr s u b := by
        have := h₁.trans (.silent hm (.refl b))
        rwa [List.append_nil] at this
      exact ih h₁' hw
    | @read a z t d set w hm hc hrest _ =>
      cases hw
      exact ⟨a, set, z, h₁, hm, hc, hrest⟩
  · rintro ⟨y, set, z, h₁, hm, hc, h₂⟩
    exact ⟨y, h₁, .read hm hc h₂⟩

theorem nil_iff {s t : Nat} :
    Path ds dr s [] t ↔ Relation.ReflTransGen (fun x y => (x, y) ∈ ds) s t := by
  constructor
  · generalize hw : ([] : List Nat) = w
    intro h
    induction h with
    | refl => exact .refl
    | silent hm _ ih => exact .head hm (ih hw)
    | read => cases hw
  · intro h
    induction h using Relation.ReflTransGen.head_induction_on with
    | refl => exact .refl t
    | head hm _ ih => exact .silent hm ih

end Path

/-! ## 2. The automaton over classes -/

/-- All moves are between states of the automaton. -/
structure Nfa.Bounded (a : Nfa) : Prop where
  silent : ∀ {s t : Nat}, (s, t) ∈ a.silent → s < a.size ∧ t < a.size
  reading : ∀ {s t : Nat} {set : CharSet}, (s, set, t) ∈ a.reading → s < a.size ∧ t < a.size

section

variable {a : Nfa} {alphabet : Alphabet} {compiled : List (Option CompiledRule)}

theorem size_silent_classNfa : (classNfa a alphabet compiled).silent.size = a.size := by
  have h := (collects_modify (fun m : Nat × Nat => m.1) (fun m => [m.2]) 0 0).foldl.size
    (Array.replicate a.size []) a.silent
  rw [Array.size_replicate] at h
  exact h

theorem mem_silent_classNfa {s t : Nat} :
    t ∈ (classNfa a alphabet compiled).silent.getD s [] ↔ s < a.size ∧ (s, t) ∈ a.silent := by
  have h := (collects_modify (fun m : Nat × Nat => m.1) (fun m => [m.2]) s t).foldl.mem_replicate
    (n := a.size) (x := a.silent)
  refine Iff.trans h ?_
  simp only [List.mem_singleton]
  constructor
  · rintro ⟨hlt, ⟨s', t'⟩, hm, rfl, rfl⟩
    exact ⟨hlt, hm⟩
  · rintro ⟨hlt, hm⟩
    exact ⟨hlt, (s, t), hm, rfl, rfl⟩

theorem mem_moves_classNfa {s k t : Nat} :
    (k, t) ∈ (classNfa a alphabet compiled).moves.getD s [] ↔
      s < a.size ∧ ∃ set, (s, set, t) ∈ a.reading ∧ k ∈ alphabet.classesOf set := by
  set found := internAll #[] (a.reading.map fun m => m.2.1) with hfound
  have h := (collects_modify (fun m : (Nat × CharSet × Nat) × Nat => m.1.1)
    (fun m => ((found.2.map alphabet.classesOf).getD m.2 []).map (·, m.1.2.2))
    s (k, t)).foldl.mem_replicate (n := a.size) (x := a.reading.zip found.1)
  -- the number of a move finds its set
  have hset : ∀ {i : Nat} {m : Nat × CharSet × Nat}, a.reading[i]? = some m →
      ∃ n, found.1[i]? = some n ∧
        (found.2.map alphabet.classesOf).getD n [] = alphabet.classesOf m.2.1 := by
    intro i m hm
    have hkey : (a.reading.map fun m => m.2.1)[i]? = some m.2.1 := by
      rw [List.getElem?_map, hm, Option.map_some]
    obtain ⟨n, hn, hk⟩ := @getElem?_internAll _ _ #[] _ _ _ hkey
    refine ⟨n, hn, ?_⟩
    rw [Array.getD_eq_getD_getElem?, Array.getElem?_map, hfound, hk]
    rfl
  refine Iff.trans h ?_
  simp only [List.mem_map, Prod.mk.injEq]
  constructor
  · rintro ⟨hlt, ⟨⟨s', set, t'⟩, n⟩, hzip, rfl, j, hj, rfl, rfl⟩
    obtain ⟨i, hi⟩ := List.mem_iff_getElem?.mp hzip
    obtain ⟨hm, hn⟩ := List.getElem?_zip_eq_some.mp hi
    obtain ⟨n', hn', hclasses⟩ := hset hm
    obtain rfl : n = n' := Option.some.inj (hn.symm.trans hn')
    rw [hclasses] at hj
    exact ⟨hlt, set, List.mem_of_getElem? hm, hj⟩
  · rintro ⟨hlt, set, hm, hk⟩
    obtain ⟨i, hi⟩ := List.mem_iff_getElem?.mp hm
    obtain ⟨n, hn, hclasses⟩ := hset hi
    refine ⟨hlt, ((s, set, t), n), ?_, rfl, k, ?_, rfl, rfl⟩
    · exact List.mem_iff_getElem?.mpr ⟨i, List.getElem?_zip_eq_some.mpr ⟨hi, hn⟩⟩
    · rw [hclasses]
      exact hk

theorem accept_eq : (classNfa a alphabet compiled).accept = compiled.zipIdx.foldl
    (put fun m => m.1.map fun c => (c.fragment.stop, m.2)) (Array.replicate a.size none) := by
  simp only [classNfa]
  congr 1
  funext acc m
  obtain ⟨c, r⟩ := m
  cases c <;> rfl

theorem accept_classNfa
    (hstops : ∀ {i j : Nat} {c c' : CompiledRule}, compiled[i]? = some (some c) →
      compiled[j]? = some (some c') → c.fragment.stop = c'.fragment.stop → i = j) {s r : Nat} :
    (classNfa a alphabet compiled).accept.getD s none = some r ↔
      s < a.size ∧ ∃ c : CompiledRule, compiled[r]? = some (some c) ∧ c.fragment.stop = s := by
  have hpick : ∀ {x : Option CompiledRule × Nat} {b : Nat}, x ∈ compiled.zipIdx →
      x.1.map (fun c => (c.fragment.stop, x.2)) = some (s, b) →
      ∃ c : CompiledRule, compiled[b]? = some (some c) ∧ c.fragment.stop = s := by
    rintro ⟨c, i⟩ b hx heq
    obtain ⟨c, rfl, heq⟩ := Option.map_eq_some_iff.mp heq
    obtain ⟨rfl, rfl⟩ := Prod.mk.inj heq
    exact ⟨c, List.mem_zipIdx_iff_getElem?.mp hx, rfl⟩
  rw [accept_eq, getD_foldl_put]
  · constructor
    · rintro ⟨hlt, x, hx, heq⟩
      exact ⟨hlt, hpick hx heq⟩
    · rintro ⟨hlt, c, hc, rfl⟩
      exact ⟨hlt, (some c, r), List.mem_zipIdx_iff_getElem?.mpr hc, rfl⟩
  · intro x hx y hy b d hb hd
    obtain ⟨c, hc, hstop⟩ := hpick hx hb
    obtain ⟨c', hc', hstop'⟩ := hpick hy hd
    exact hstops hc hc' (hstop.trans hstop'.symm)

theorem mem_closure_classNfa (hbounded : a.Bounded) {seeds : List Nat} {t : Nat} :
    t ∈ (classNfa a alphabet compiled).closure seeds ↔
      ∃ s ∈ seeds, s < a.size ∧ Path a.silent a.reading s [] t := by
  rw [ClassNfa.closure, Graph.mem_reachable, size_silent_classNfa]
  refine exists_congr fun s => and_congr_right fun _ => and_congr_right fun hs => ?_
  rw [Path.nil_iff, Graph.Leads]
  constructor
  · intro h
    exact Relation.ReflTransGen.mono (fun x y hxy => (mem_silent_classNfa.mp hxy.1).2) _ _ h
  · intro h
    refine Relation.ReflTransGen.mono (fun x y hxy => ?_) _ _ h
    exact ⟨mem_silent_classNfa.mpr ⟨(hbounded.silent hxy).1, hxy⟩, (hbounded.silent hxy).2⟩

end

/-! ## 3. Words and sets of states -/

/-- The set holds exactly the states that a word leads to from `s`. -/
def Tracks (a : Nfa) (s : Nat) (w set : List Nat) : Prop :=
  ∀ t, t ∈ set ↔ Path a.silent a.reading s w t

section

variable {a : Nfa} {sets : List CharSet} {compiled : List (Option CompiledRule)}

theorem tracks_start (hbounded : a.Bounded) {alphabet : Alphabet} {s : Nat} (hs : s < a.size) :
    Tracks a s [] ((classNfa a alphabet compiled).closure [s]) := by
  intro t
  rw [mem_closure_classNfa hbounded]
  simp [hs]

/-- A code point can be read exactly if its class can. -/
theorem moves_iff (hbounded : a.Bounded) (hsets : ∀ m ∈ a.reading, m.2.1 ∈ sets) {s c t : Nat}
    {w set : List Nat} (hset : Tracks a s w set) (hc : c ≤ endMark) :
    (classNfa a (.of sets) compiled).Moves set ((Alphabet.of sets).classOf c) t ↔
      ∃ y r, Path a.silent a.reading s w y ∧ (y, r, t) ∈ a.reading ∧ c ∈ r := by
  constructor
  · rintro ⟨y, hy, hm⟩
    obtain ⟨-, r, hr, hclass⟩ := mem_moves_classNfa.mp hm
    exact ⟨y, r, (hset y).mp hy, hr, (Alphabet.mem_classesOf (hsets _ hr) hc).mp hclass⟩
  · rintro ⟨y, r, hpath, hr, hmem⟩
    refine ⟨y, (hset y).mpr hpath, mem_moves_classNfa.mpr ⟨(hbounded.reading hr).1, r, hr, ?_⟩⟩
    exact (Alphabet.mem_classesOf (hsets _ hr) hc).mpr hmem

/-- **Reading one more code point.** -/
theorem tracks_step (hbounded : a.Bounded) (hsets : ∀ m ∈ a.reading, m.2.1 ∈ sets) {s c : Nat}
    {w set : List Nat} (hset : Tracks a s w set) (hc : c ≤ endMark)
    (hlt : (Alphabet.of sets).classOf c < (Alphabet.of sets).count) :
    Tracks a s (w ++ [c]) ((classNfa a (.of sets) compiled).closure
      (((classNfa a (.of sets) compiled).targets (Alphabet.of sets).count set).getD
        ((Alphabet.of sets).classOf c) [])) := by
  intro t
  rw [mem_closure_classNfa hbounded, Path.snoc_iff]
  constructor
  · rintro ⟨z, hz, -, hpath⟩
    obtain ⟨y, r, hy, hr, hmem⟩ :=
      (moves_iff hbounded hsets hset hc).mp (ClassNfa.mem_targets.mp hz).2
    exact ⟨y, r, z, hy, hr, hmem, hpath⟩
  · rintro ⟨y, r, z, hy, hr, hmem, hpath⟩
    refine ⟨z, ClassNfa.mem_targets.mpr ⟨hlt, ?_⟩, (hbounded.reading hr).2, hpath⟩
    exact (moves_iff hbounded hsets hset hc).mpr ⟨y, r, hy, hr, hmem⟩

end

end GrammarTables.Lexical
