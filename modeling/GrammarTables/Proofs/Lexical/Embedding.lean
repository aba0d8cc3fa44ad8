import GrammarTables.Proofs.Lexical.Agreement
import GrammarTables.Proofs.Lexical.Recognizer
/-
# Automata inside larger ones

The states of one automaton may stand in a larger one under other numbers, in the same order, such
that the moves that leave them are the same (`Nfa.Embeds`).  The larger one may have states and
moves besides; nothing that is built in both reaches them.

Building the same expression in both keeps this (`embeds_build`).  The subset construction then
finds the same sets of states in the same order, although the larger automaton reads more sets and
its alphabet is finer, so the plans for both agree at every code point (`planOn_agrees`).
-/

namespace GrammarTables.Lexical

/-! ## 1. Embeddings -/

/-- The states of `a` have the numbers that `f` gives in `b`, and the moves that leave them are those
of `a`.  States that are added to both are numbered alike. -/
structure Nfa.Embeds (a : Nfa) (f : Nat → Nat) (b : Nfa) : Prop where
  mono : StrictMono f
  fresh : ∀ k, f (a.size + k) = b.size + k
  silent : ∀ {s t' : Nat}, (f s, t') ∈ b.silent ↔ ∃ t, (s, t) ∈ a.silent ∧ t' = f t
  reading : ∀ {s t' : Nat} {set : CharSet}, (f s, set, t') ∈ b.reading ↔
    ∃ t, (s, set, t) ∈ a.reading ∧ t' = f t

/-- The fragment under other numbers. -/
def Fragment.renumber (f : Nat → Nat) (x : Fragment) : Fragment := ⟨f x.start, f x.stop⟩

/-- The compiled rule under other numbers. -/
def CompiledRule.renumber (f : Nat → Nat) (c : CompiledRule) : CompiledRule :=
  ⟨c.fragment.renumber f, c.lookahead⟩

/-- Compiled rules under other numbers. -/
def renumberRules (f : Nat → Nat) (compiled : List (Option CompiledRule)) :
    List (Option CompiledRule) :=
  compiled.map (Option.map (CompiledRule.renumber f))

@[simp] theorem getElem?_renumberRules (f : Nat → Nat) (compiled : List (Option CompiledRule))
    (i : Nat) : (renumberRules f compiled)[i]?
      = compiled[i]?.map (Option.map (CompiledRule.renumber f)) :=
  List.getElem?_map

namespace Nfa.Embeds

variable {f : Nat → Nat} {a b : Nfa}

theorem refl (a : Nfa) : Embeds a id a where
  mono := strictMono_id
  fresh _ := rfl
  silent := by simp
  reading := by simp

theorem map_size (h : Embeds a f b) : f a.size = b.size := h.fresh 0

theorem lt_iff (h : Embeds a f b) {s : Nat} : f s < b.size ↔ s < a.size := by
  rw [← h.map_size, h.mono.lt_iff_lt]

/-! ## 2. Building in both automata -/

theorem addState (h : Embeds a f b) : Embeds a.addState.2 f b.addState.2 where
  mono := h.mono
  fresh k := by
    have := h.fresh (k + 1)
    simp only [Nfa.addState]
    rw [show a.size + 1 + k = a.size + (k + 1) by omega, this]
    omega
  silent := h.silent
  reading := h.reading

theorem addSilent (h : Embeds a f b) (s t : Nat) :
    Embeds (a.addSilent s t) f (b.addSilent (f s) (f t)) where
  mono := h.mono
  fresh := h.fresh
  silent {x t'} := by
    simp only [Nfa.addSilent, List.mem_cons, Prod.mk.injEq, h.mono.injective.eq_iff, h.silent]
    constructor
    · rintro (⟨rfl, rfl⟩ | ⟨u, hu, rfl⟩)
      · exact ⟨t, Or.inl ⟨rfl, rfl⟩, rfl⟩
      · exact ⟨u, Or.inr hu, rfl⟩
    · rintro ⟨u, ⟨rfl, rfl⟩ | hu, rfl⟩
      · exact Or.inl ⟨rfl, rfl⟩
      · exact Or.inr ⟨u, hu, rfl⟩
  reading := h.reading

theorem addReading (h : Embeds a f b) (s : Nat) (set : CharSet) (t : Nat) :
    Embeds (a.addReading s set t) f (b.addReading (f s) set (f t)) where
  mono := h.mono
  fresh := h.fresh
  silent := h.silent
  reading {x t' set'} := by
    simp only [Nfa.addReading, List.mem_cons, Prod.mk.injEq, h.mono.injective.eq_iff, h.reading]
    constructor
    · rintro (⟨rfl, rfl, rfl⟩ | ⟨u, hu, rfl⟩)
      · exact ⟨t, Or.inl ⟨rfl, rfl, rfl⟩, rfl⟩
      · exact ⟨u, Or.inr hu, rfl⟩
    · rintro ⟨u, ⟨rfl, rfl, rfl⟩ | hu, rfl⟩
      · exact Or.inl ⟨rfl, rfl, rfl⟩
      · exact Or.inr ⟨u, hu, rfl⟩

end Nfa.Embeds

/-- What `build` builds in both automata has the same numbers, up to `f`, and keeps the embedding. -/
def BuildsAlike (f : Nat → Nat) (build : Nfa → Fragment × Nfa) : Prop :=
  ∀ {a b : Nfa}, a.Embeds f b →
    (build b).1 = (build a).1.renumber f ∧ (build a).2.Embeds f (build b).2

section Copies

variable {f : Nat → Nat} {a b : Nfa} {build : Nfa → Fragment × Nfa}
  {after after' : Nfa → Nat → Nfa}

theorem embeds_chain (hbuild : BuildsAlike f build)
    (hafter : ∀ {a b : Nfa} (s : Nat), a.Embeds f b → (after a s).Embeds f (after' b (f s)))
    (n : Nat) : ∀ {cur : Nat} {a b : Nfa}, a.Embeds f b →
      (Nfa.chain build after' n (f cur) b).1 = f (Nfa.chain build after n cur a).1 ∧
        (Nfa.chain build after n cur a).2.Embeds f (Nfa.chain build after' n (f cur) b).2 := by
  induction n with
  | zero => exact fun h => ⟨rfl, h⟩
  | succ n ih =>
    intro cur a b h
    obtain ⟨hfragment, hnext⟩ := hbuild h
    have hnext := hafter (build a).1.stop (hnext.addSilent cur (build a).1.start)
    have hrest := @ih (build a).1.stop _ _ hnext
    simp only [Nfa.chain, hfragment]
    exact hrest

theorem embeds_addRepeated (hbuild : BuildsAlike f build) (min : Nat) (max : Option Nat) :
    BuildsAlike f (Nfa.addRepeated build min max) := by
  intro a b h
  obtain ⟨hcur, hchain⟩ := @embeds_chain f build (fun a _ => a) (fun a _ => a) hbuild
    (fun _ h => h) min a.size _ _ h.addState
  rw [h.map_size] at hcur hchain
  set c := Nfa.chain build (fun a _ => a) min a.size a.addState.2
  set c' := Nfa.chain build (fun a _ => a) min b.size b.addState.2
  cases max with
  | none =>
    obtain ⟨hfragment, hnext⟩ := hbuild hchain
    have hloop := ((hnext.addState.addSilent c.1 (build c.2).2.size).addSilent
      (build c.2).2.size (build c.2).1.start).addSilent (build c.2).1.stop (build c.2).2.size
    have hresult : Nfa.addRepeated build min none b = (⟨b.size, (build c'.2).2.size⟩,
        (((build c'.2).2.addState.2.addSilent c'.1 (build c'.2).2.size).addSilent
          (build c'.2).2.size (build c'.2).1.start).addSilent (build c'.2).1.stop
            (build c'.2).2.size) := rfl
    rw [hresult, ← h.map_size, ← hnext.map_size, hcur, hfragment]
    exact ⟨rfl, hloop⟩
  | some max =>
    have hstop := hchain.addState.addSilent c.1 c.2.size
    obtain ⟨-, hrest⟩ := @embeds_chain f build (fun a s => a.addSilent s c.2.size)
      (fun a s => a.addSilent s (f c.2.size)) hbuild (fun s h => h.addSilent s c.2.size)
      (max - min) c.1 _ _ hstop
    have hresult : Nfa.addRepeated build min (some max) b = (⟨b.size, c'.2.size⟩,
        (Nfa.chain build (fun a s => a.addSilent s c'.2.size) (max - min) c'.1
          (c'.2.addState.2.addSilent c'.1 c'.2.size)).2) := rfl
    rw [hresult, ← h.map_size, ← hchain.map_size, hcur]
    exact ⟨rfl, hrest⟩

end Copies

mutual

/-- **Building an expression in both automata keeps the embedding.** -/
theorem embeds_build {f : Nat → Nat} : ∀ e : Expr, BuildsAlike f e.build
  | .chars set, a, b, h => by
    rw [build_chars, build_chars]
    have hmove := h.addState.addState.addReading a.size set (a.size + 1)
    rw [h.map_size, h.fresh 1] at hmove
    refine ⟨?_, hmove⟩
    rw [Fragment.renumber, h.map_size, h.fresh 1]
  | .seq items, a, b, h => by
    rw [build_seq, build_seq]
    obtain ⟨hstop, hnext⟩ := embeds_buildSeq items a.size h.addState
    rw [h.map_size] at hstop hnext
    refine ⟨?_, hnext⟩
    rw [Fragment.renumber, h.map_size, hstop]
  | .alt items, a, b, h => by
    rw [build_alt, build_alt]
    have hnext := embeds_buildAlt items a.size (a.size + 1) h.addState.addState
    rw [h.map_size, h.fresh 1] at hnext
    refine ⟨?_, hnext⟩
    rw [Fragment.renumber, h.map_size, h.fresh 1]
  | .repeated inner min max, a, b, h => by
    rw [Expr.build]
    exact embeds_addRepeated (embeds_build inner) min max h

theorem embeds_buildSeq {f : Nat → Nat} : ∀ (es : List Expr) (cur : Nat) {a b : Nfa},
    a.Embeds f b → (buildSeq es (f cur) b).1 = f (buildSeq es cur a).1 ∧
      (buildSeq es cur a).2.Embeds f (buildSeq es (f cur) b).2
  | [], cur, a, b, h => ⟨rfl, h⟩
  | e :: es, cur, a, b, h => by
    obtain ⟨hfragment, hnext⟩ := embeds_build e h
    have hrest := embeds_buildSeq es (e.build a).1.stop (hnext.addSilent cur (e.build a).1.start)
    simp only [buildSeq, hfragment]
    exact hrest

theorem embeds_buildAlt {f : Nat → Nat} : ∀ (es : List Expr) (start stop : Nat) {a b : Nfa},
    a.Embeds f b → (buildAlt es start stop a).Embeds f (buildAlt es (f start) (f stop) b)
  | [], start, stop, a, b, h => h
  | e :: es, start, stop, a, b, h => by
    obtain ⟨hfragment, hnext⟩ := embeds_build e h
    have hrest := embeds_buildAlt es start stop
      ((hnext.addSilent start (e.build a).1.start).addSilent (e.build a).1.stop stop)
    simp only [buildAlt, hfragment]
    exact hrest

end

theorem embeds_ruleBuild {f : Nat → Nat} {a b : Nfa} (r : RuleExpr) (h : a.Embeds f b) :
    (r.build b).1 = (r.build a).1.renumber f ∧ (r.build a).2.Embeds f (r.build b).2 := by
  obtain ⟨hfragment, hnext⟩ := embeds_build (.seq r.body) h
  refine ⟨?_, hnext⟩
  simp only [RuleExpr.build, hfragment]
  rfl

/-- Entries that lead to the same states. -/
theorem embeds_addEntries {f : Nat → Nat} {a b : Nfa} (lists : List (List Nat))
    (h : a.Embeds f b) :
    (addEntries (lists.map (List.map f)) b).1 = (addEntries lists a).1.map f ∧
      (addEntries lists a).2.Embeds f (addEntries (lists.map (List.map f)) b).2 := by
  obtain ⟨ds, hadds⟩ := addEntries_adds lists a
  obtain ⟨ds', hadds'⟩ := addEntries_adds (lists.map (List.map f)) b
  constructor
  · rw [hadds.starts_eq, hadds'.starts_eq, List.length_map, List.map_map]
    exact List.map_congr_left fun q _ => (h.fresh q).symm
  · constructor
    · exact h.mono
    · intro k
      rw [hadds.size_eq, hadds'.size_eq, List.length_map, Nat.add_assoc, h.fresh]
      omega
    · intro s t'
      rw [hadds.silent_eq, hadds'.silent_eq, List.mem_append, h.silent, hadds'.mem_iff]
      simp only [List.mem_append, hadds.mem_iff, List.getElem?_map, Option.map_eq_some_iff]
      constructor
      · rintro (⟨q, ts', ⟨ts, hq, rfl⟩, hs, ht'⟩ | ⟨t, ht, rfl⟩)
        · obtain ⟨t, ht, rfl⟩ := List.mem_map.mp ht'
          rw [← h.fresh, h.mono.injective.eq_iff] at hs
          exact ⟨t, Or.inl ⟨q, ts, hq, hs, ht⟩, rfl⟩
        · exact ⟨t, Or.inr ht, rfl⟩
      · rintro ⟨t, ⟨q, ts, hq, rfl, ht⟩ | ht, rfl⟩
        · exact Or.inl ⟨q, ts.map f, ⟨ts, hq, rfl⟩, h.fresh q, List.mem_map.mpr ⟨t, ht, rfl⟩⟩
        · exact Or.inr ⟨t, ht, rfl⟩
    · intro s t' set
      rw [hadds.reading_eq, hadds'.reading_eq]
      exact h.reading

/-! ## 3. Sets of states -/

section Sets

variable {f : Nat → Nat} {a b : Nfa} {compiled compiled' : List (Option CompiledRule)}
  {sets sets' : List CharSet} {set : List Nat} {c : Nat}

/-- Nothing is read on the way to the same states. -/
theorem Nfa.Embeds.path_nil (h : a.Embeds f b) {s t' : Nat} :
    Path b.silent b.reading (f s) [] t' ↔ ∃ t, Path a.silent a.reading s [] t ∧ t' = f t := by
  simp only [Path.nil_iff]
  constructor
  · intro hpath
    induction hpath with
    | refl => exact ⟨s, .refl, rfl⟩
    | tail _ hm ih =>
      obtain ⟨t, ht, rfl⟩ := ih
      obtain ⟨u, hu, rfl⟩ := h.silent.mp hm
      exact ⟨u, ht.tail hu, rfl⟩
  · rintro ⟨t, ht, rfl⟩
    exact ht.lift f fun x y hxy => h.silent.mpr ⟨y, hxy, rfl⟩

theorem Nfa.Embeds.closure (h : a.Embeds f b) (ha : a.Bounded) (hb : b.Bounded)
    {alphabet alphabet' : Alphabet} {seeds seeds' : List Nat}
    (hseeds : ∀ t', t' ∈ seeds' ↔ ∃ t ∈ seeds, t' = f t) :
    (classNfa b alphabet' compiled').closure seeds'
      = ((classNfa a alphabet compiled).closure seeds).map f := by
  refine ascending_ext (Graph.pairwise_reachable _ _ _) ?_ fun t' => ?_
  · exact (Graph.pairwise_reachable _ _ _).map f fun _ _ hlt => h.mono hlt
  · rw [mem_closure_classNfa hb, List.mem_map]
    simp only [mem_closure_classNfa ha, hseeds]
    constructor
    · rintro ⟨_, ⟨s, hs, rfl⟩, hlt, hpath⟩
      obtain ⟨t, ht, rfl⟩ := h.path_nil.mp hpath
      exact ⟨t, ⟨s, hs, h.lt_iff.mp hlt, ht⟩, rfl⟩
    · rintro ⟨t, ⟨s, hs, hlt, ht⟩, rfl⟩
      exact ⟨f s, ⟨s, hs, rfl⟩, h.lt_iff.mpr hlt, h.path_nil.mpr ⟨t, ht, rfl⟩⟩

/-- The targets of the moves from some states by a code point. -/
def targetsAt (a : Nfa) (sets : List CharSet) (compiled : List (Option CompiledRule))
    (set : List Nat) (c : Nat) : List Nat :=
  ((classNfa a (.of sets) compiled).targets (Alphabet.of sets).count set).getD
    ((Alphabet.of sets).classOf c) []

/-- The set of states that follows a set of states by a code point. -/
def followAt (a : Nfa) (sets : List CharSet) (compiled : List (Option CompiledRule))
    (set : List Nat) (c : Nat) : Option (List Nat) :=
  (classNfa a (.of sets) compiled).follow (Alphabet.of sets).count set
    ((Alphabet.of sets).classOf c)

theorem mem_targetsAt (hsets : ∀ m ∈ a.reading, m.2.1 ∈ sets) (hc : c ≤ endMark) {t : Nat} :
    t ∈ targetsAt a sets compiled set c ↔
      ∃ s ∈ set, s < a.size ∧ ∃ r, (s, r, t) ∈ a.reading ∧ c ∈ r := by
  simp only [targetsAt, ClassNfa.mem_targets, ClassNfa.Moves, mem_moves_classNfa,
    Alphabet.classOf_lt_count _ hc, true_and]
  refine exists_congr fun s => and_congr_right fun _ => and_congr_right fun _ =>
    exists_congr fun r => and_congr_right fun hr => ?_
  exact Alphabet.mem_classesOf (hsets _ hr) hc

/-- The two automata and the sets that their alphabets tell apart. -/
structure Nfa.EmbedsOver (a : Nfa) (f : Nat → Nat) (b : Nfa) (sets sets' : List CharSet) : Prop
    extends a.Embeds f b where
  bounded : a.Bounded
  bounded' : b.Bounded
  sets_read : ∀ m ∈ a.reading, m.2.1 ∈ sets
  sets_read' : ∀ m ∈ b.reading, m.2.1 ∈ sets'

theorem Nfa.EmbedsOver.mem_targetsAt (h : a.EmbedsOver f b sets sets') (hc : c ≤ endMark)
    {t' : Nat} : t' ∈ targetsAt b sets' compiled' (set.map f) c ↔
      ∃ t ∈ targetsAt a sets compiled set c, t' = f t := by
  simp only [Lexical.mem_targetsAt h.sets_read hc, Lexical.mem_targetsAt h.sets_read' hc]
  constructor
  · rintro ⟨_, hs', hlt, r, hr, hmem⟩
    obtain ⟨s, hs, rfl⟩ := List.mem_map.mp hs'
    obtain ⟨t, ht, rfl⟩ := h.reading.mp hr
    exact ⟨t, ⟨s, hs, h.lt_iff.mp hlt, r, ht, hmem⟩, rfl⟩
  · rintro ⟨t, ⟨s, hs, hlt, r, hr, hmem⟩, rfl⟩
    exact ⟨f s, List.mem_map.mpr ⟨s, hs, rfl⟩, h.lt_iff.mpr hlt, r, h.reading.mpr ⟨t, hr, rfl⟩,
      hmem⟩

/-- **The same sets of states follow at every code point.** -/
theorem Nfa.EmbedsOver.followAt (h : a.EmbedsOver f b sets sets') (hc : c ≤ endMark) :
    followAt b sets' compiled' (set.map f) c
      = (followAt a sets compiled set c).map (List.map f) := by
  have hmem : ∀ t', t' ∈ targetsAt b sets' compiled' (set.map f) c ↔
      ∃ t ∈ targetsAt a sets compiled set c, t' = f t := fun _ => h.mem_targetsAt hc
  have hempty : (targetsAt b sets' compiled' (set.map f) c).isEmpty
      = (targetsAt a sets compiled set c).isEmpty := by
    rw [Bool.eq_iff_iff, List.isEmpty_iff, List.isEmpty_iff, List.eq_nil_iff_forall_not_mem,
      List.eq_nil_iff_forall_not_mem]
    simp only [hmem]
    constructor
    · exact fun hnone t ht => hnone (f t) ⟨t, ht, rfl⟩
    · rintro hnone _ ⟨t, ht, -⟩
      exact hnone t ht
  have hclosure := @Nfa.Embeds.closure f a b compiled compiled' h.toEmbeds h.bounded h.bounded'
    (.of sets) (.of sets') _ _ hmem
  simp only [Lexical.followAt, ClassNfa.follow]
  simp only [targetsAt] at hempty hclosure
  rw [hempty, hclosure]
  split <;> rfl

/-- The targets of the edges that leave a set of states, by code points. -/
theorem eraseDups_next (a : Nfa) (sets : List CharSet) (compiled : List (Option CompiledRule))
    (set : List Nat) :
    (((classNfa a (.of sets) compiled).next (Alphabet.of sets).count set).map (·.2)).eraseDups
      = (codePoints.filterMap (followAt a sets compiled set)).eraseDups := by
  rw [ClassNfa.map_snd_next, Alphabet.eraseDups_filterMap_range]
  rfl

/-! ## 4. The deterministic automata -/

/-- **The subset construction finds the same sets in the same order.** -/
theorem Nfa.EmbedsOver.sets_ofNfa (h : a.EmbedsOver f b sets sets') (starts : List Nat)
    (before : Nat → Nat → Bool) :
    let d := Dfa.ofNfa (classNfa a (.of sets) compiled) starts (Alphabet.of sets).count before
    let d' := Dfa.ofNfa (classNfa b (.of sets') compiled') (starts.map f)
      (Alphabet.of sets').count before
    d'.sets = d.sets.map (List.map f) ∧ d'.starts = d.starts := by
  intro d d'
  set next := (classNfa a (.of sets) compiled).next (Alphabet.of sets).count with hnext
  set next' := (classNfa b (.of sets') compiled').next (Alphabet.of sets').count with hnext'
  have hinj : Function.Injective (List.map f) := List.map_injective_iff.mpr h.mono.injective
  have htargets : ∀ set, ((next' (set.map f)).map (·.2)).eraseDups
      = (((next set).map (·.2)).map (List.map f)).eraseDups := by
    intro set
    rw [hnext', eraseDups_next, eraseDups_map_of_injective hinj, hnext, eraseDups_next,
      ← eraseDups_map_of_injective hinj, List.map_filterMap]
    refine congrArg List.eraseDups (List.filterMap_congr fun c hc => ?_)
    exact h.followAt (mem_codePoints.mp hc)
  have hstarts : (starts.map f).map (fun s => (classNfa b (.of sets') compiled').closure [s])
      = (starts.map fun s => (classNfa a (.of sets) compiled).closure [s]).map (List.map f) := by
    rw [List.map_map, List.map_map]
    refine List.map_congr_left fun s _ => ?_
    exact h.closure h.bounded h.bounded' (by simp)
  -- the smaller automaton is explored no further under the bound of the larger one
  have hle : Nat.pow 2 (classNfa a (.of sets) compiled).silent.size ≤ Nat.pow 2 b.size := by
    rw [size_silent_classNfa, ← h.map_size]
    exact Nat.pow_le_pow_right (by decide) h.mono.le_apply
  have hbound := ((classNfa a (.of sets) compiled).explores_next starts
    (Alphabet.of sets).count).explore_of_le hle
  obtain ⟨hnumbers, hkeys⟩ := Graph.explore_map hinj htargets (Nat.pow 2 b.size)
    (starts.map fun s => (classNfa a (.of sets) compiled).closure [s])
  rw [← hstarts, hbound] at hnumbers hkeys
  have hsize : (classNfa b (.of sets') compiled').silent.size = b.size := size_silent_classNfa
  rw [← hsize] at hnumbers hkeys
  exact ⟨hkeys, hnumbers⟩

/-- The states accept the same rules. -/
theorem Nfa.Embeds.accepted (h : a.Embeds f b) {alphabet alphabet' : Alphabet}
    (before : Nat → Nat → Bool) (set : List Nat) :
    (classNfa b alphabet' (renumberRules f compiled)).accepted before (set.map f)
      = (classNfa a alphabet compiled).accepted before set := by
  have haccept : ∀ s, (classNfa b alphabet' (renumberRules f compiled)).accept.getD (f s) none
      = (classNfa a alphabet compiled).accept.getD s none := by
    intro s
    rw [accept_eq, accept_eq, renumberRules, List.zipIdx_map, List.foldl_map]
    refine getD_foldl_put_rename h.mono.injective ?_ _ ?_ ?_ s
    · rintro ⟨c, r⟩
      cases c <;> rfl
    · intro i
      simpa using h.lt_iff.symm
    · intro i
      simp [Array.getD_eq_getD_getElem?, Array.getElem?_replicate, h.lt_iff]
  rw [ClassNfa.accepted, ClassNfa.accepted, List.filterMap_map]
  simp only [Function.comp_def, haccept]

theorem Nfa.EmbedsOver.acceptsOf_ofNfa (h : a.EmbedsOver f b sets sets') (starts : List Nat)
    (before : Nat → Nat → Bool) (n : Nat) :
    (Dfa.ofNfa (classNfa b (.of sets') (renumberRules f compiled)) (starts.map f)
        (Alphabet.of sets').count before).acceptsOf n
      = (Dfa.ofNfa (classNfa a (.of sets) compiled) starts (Alphabet.of sets).count
        before).acceptsOf n := by
  set compiled' := renumberRules f compiled
  set d := Dfa.ofNfa (classNfa a (.of sets) compiled) starts (Alphabet.of sets).count before
  set d' := Dfa.ofNfa (classNfa b (.of sets') compiled') (starts.map f) (Alphabet.of sets').count
    before
  have haccepts : d.accepts = d.sets.map ((classNfa a (.of sets) compiled).accepted before) := rfl
  have haccepts' : d'.accepts
      = d'.sets.map ((classNfa b (.of sets') compiled').accepted before) := rfl
  rw [Dfa.acceptsOf, Dfa.acceptsOf, haccepts, haccepts', (h.sets_ofNfa starts before).1,
    Array.map_map]
  congr 2
  funext set
  exact h.accepted before set

/-- **The transitions are the same at every code point.** -/
theorem Nfa.EmbedsOver.step_ofNfa (h : a.EmbedsOver f b sets sets') (starts : List Nat)
    (before : Nat → Nat → Bool) (hc : c ≤ endMark) (n : Nat) :
    (Dfa.ofNfa (classNfa b (.of sets') compiled') (starts.map f) (Alphabet.of sets').count
        before).step n ((Alphabet.of sets').classOf c)
      = (Dfa.ofNfa (classNfa a (.of sets) compiled) starts (Alphabet.of sets).count
        before).step n ((Alphabet.of sets).classOf c) := by
  set d := Dfa.ofNfa (classNfa a (.of sets) compiled) starts (Alphabet.of sets).count before
  set d' := Dfa.ofNfa (classNfa b (.of sets') compiled') (starts.map f) (Alphabet.of sets').count
    before
  have hd : Subsets _ _ _ before d := Dfa.ofNfa_subsets _ _ _ _
  have hd' : Subsets _ _ _ before d' := Dfa.ofNfa_subsets _ _ _ _
  have hsets : ∀ m : Nat, d'.sets[m]? = d.sets[m]?.map (List.map f) := by
    intro m
    rw [(h.sets_ofNfa starts before).1, Array.getElem?_map]
  have hinj : Function.Injective (List.map f) := List.map_injective_iff.mpr h.mono.injective
  have hlt := Alphabet.classOf_lt_count sets hc
  have hlt' := Alphabet.classOf_lt_count sets' hc
  cases hn : d.sets[n]? with
  | none =>
    rw [hd.step_eq_none hn, hd'.step_eq_none (by rw [hsets, hn, Option.map_none])]
  | some set =>
    have hn' : d'.sets[n]? = some (set.map f) := by rw [hsets, hn, Option.map_some]
    have hfollow := @Nfa.EmbedsOver.followAt f a b compiled compiled' sets sets' set c h hc
    rw [Lexical.followAt, Lexical.followAt] at hfollow
    refine Option.ext fun m => ?_
    rw [hd.step_iff hn hlt, hd'.step_iff hn' hlt', hsets, hfollow]
    constructor
    · rintro ⟨_, hset, hm⟩
      obtain ⟨set', hset', rfl⟩ := Option.map_eq_some_iff.mp hset
      obtain ⟨set'', hm, heq⟩ := Option.map_eq_some_iff.mp hm
      exact ⟨set', hset', hinj heq ▸ hm⟩
    · rintro ⟨set', hset, hm⟩
      exact ⟨set'.map f, by rw [hset, Option.map_some], by rw [hm, Option.map_some]⟩

end Sets

/-! ## 5. Plans -/

/-- The sets that the alphabet for compiled rules tells apart. -/
def readSets (a : Nfa) (compiled : List (Option CompiledRule)) : List CharSet :=
  (internAll #[] (a.reading.map fun m => m.2.1)).2.toList
    ++ compiled.filterMap fun c => c.bind (·.lookahead)

/-- The plan for compiled rules and an automaton with its entries. -/
def planIn (g : Grammar) (roles : List Role) (compiled : List (Option CompiledRule)) (a : Nfa)
    (starts : List Nat) : Plan :=
  let sets := readSets a compiled
  { roles
    compiled := compiled.toArray
    alphabet := .of sets
    full := fullDfa g compiled a starts sets
    matcher :=
      { dfa := (fullDfa g compiled a starts sets).withoutEmptyMatches
        classes := (Alphabet.of sets).count
        excluded := (compiled.map (excludedRow (.of sets))).toArray } }

/-- The plan for rules that were compiled into an automaton. -/
def planOn (g : Grammar) (roles : List Role) (compiled : List (Option CompiledRule)) (a : Nfa) :
    Plan :=
  let (starts, a) := addEntries ((List.range g.states.size).map (ruleEntries g compiled)) a
  planIn g roles compiled a starts

theorem planFor_eq_planOn (g : Grammar) (roles : List Role) :
    planFor g roles = planOn g roles (buildRules (roles.map Role.expr?) {}).1
      (buildRules (roles.map Role.expr?) {}).2 := rfl

theorem Nfa.Bounded.addEntries {a : Nfa} (ha : a.Bounded) {lists : List (List Nat)}
    (hlists : ∀ ts ∈ lists, ∀ t ∈ ts, t < a.size) : (addEntries lists a).2.Bounded := by
  obtain ⟨ds, hadds⟩ := addEntries_adds lists a
  constructor
  · intro s t hm
    rw [hadds.silent_eq, List.mem_append, hadds.mem_iff] at hm
    rw [hadds.size_eq]
    rcases hm with ⟨q, ts, hq, rfl, ht⟩ | hm
    · have hlt := hlists ts (List.mem_of_getElem? hq) t ht
      have hq := (List.getElem?_eq_some_iff.mp hq).1
      omega
    · have := ha.silent hm
      omega
  · intro s t set hm
    rw [hadds.reading_eq] at hm
    have := ha.reading hm
    rw [hadds.size_eq]
    omega

theorem ruleEntries_renumber (g : Grammar) (compiled : List (Option CompiledRule)) (f : Nat → Nat)
    (state : Nat) : ruleEntries g (renumberRules f compiled) state
      = (ruleEntries g compiled state).map f := by
  unfold ruleEntries renumberRules
  rw [List.zip_map_right, List.filterMap_map, List.map_filterMap]
  refine List.filterMap_congr ?_
  rintro ⟨r, c⟩ -
  cases c with
  | none => rfl
  | some c =>
    simp only [Function.comp_apply, Prod.map, Option.map_some, Option.bind_some, id]
    split <;> rfl

theorem mem_readSets_of_lookahead {a : Nfa} {compiled : List (Option CompiledRule)}
    {c : CompiledRule} {set : CharSet} (hc : some c ∈ compiled) (hset : c.lookahead = some set) :
    set ∈ readSets a compiled :=
  List.mem_append_right _ (List.mem_filterMap.mpr ⟨some c, hc, hset⟩)

theorem mem_readSets_of_reading {a : Nfa} {compiled : List (Option CompiledRule)} :
    ∀ m ∈ a.reading, m.2.1 ∈ readSets a compiled := by
  intro m hm
  refine List.mem_append_left _ (Array.mem_toList_iff.mpr ((mem_internAll _).mpr (Or.inr ?_)))
  exact List.mem_map.mpr ⟨m, hm, rfl⟩

/-- Which code points must not follow a rule is said by its lookahead alone. -/
theorem excluded_iff {a : Nfa} {compiled : List (Option CompiledRule)} {r c : Nat}
    (hc : c ≤ endMark) :
    (((compiled.map (excludedRow (.of (readSets a compiled)))).toArray.getD r #[]).getD
        ((Alphabet.of (readSets a compiled)).classOf c) false) = true ↔
      ∃ rule set, compiled[r]? = some (some rule) ∧ rule.lookahead = some set ∧ c ∈ set := by
  have hrow : (compiled.map (excludedRow (.of (readSets a compiled)))).toArray.getD r #[]
      = excludedRow (.of (readSets a compiled)) (compiled[r]?.join) := by
    rw [Array.getD_eq_getD_getElem?, List.getElem?_toArray, List.getElem?_map]
    cases compiled[r]? <;> rfl
  rw [hrow, getD_excludedRow]
  simp only [Alphabet.classOf_lt_count _ hc, true_and, Option.join_eq_some_iff]
  refine exists_congr fun rule => exists_congr fun set => and_congr_right fun hr =>
    and_congr_right fun hset => ?_
  exact Alphabet.mem_classesOf (mem_readSets_of_lookahead (List.mem_of_getElem? hr) hset) hc

/-- The plans for an automaton and a larger one agree. -/
theorem Nfa.EmbedsOver.planIn_agrees {f : Nat → Nat} {a b : Nfa}
    {compiled : List (Option CompiledRule)} (g : Grammar) (roles : List Role) (starts : List Nat)
    (h : a.EmbedsOver f b (readSets a compiled) (readSets b (renumberRules f compiled))) :
    (planIn g roles compiled a starts).Agrees
      (planIn g roles (renumberRules f compiled) b (starts.map f))
      (readSets a compiled) (readSets b (renumberRules f compiled)) := by
  obtain ⟨hsets, hnumbers⟩ := @Nfa.EmbedsOver.sets_ofNfa f a b compiled (renumberRules f compiled)
    _ _ h starts (ranksBefore g.lexicalRules)
  refine
    { alphabet := rfl, alphabet' := rfl, classes := rfl, classes' := rfl, roles := rfl
      dropped := ?_
      size := ?_
      starts := hnumbers.symm
      accepts := ?_
      step := fun s c hc => (h.step_ofNfa starts (ranksBefore g.lexicalRules) hc s).symm
      excludes := ?_ }
  · intro r
    simp only [planIn, Array.getD_eq_getD_getElem?, List.getElem?_toArray, getElem?_renumberRules]
    rcases compiled[r]? with _ | _ | c <;> rfl
  · exact ((congrArg Array.size hsets).trans Array.size_map).symm
  · intro s
    simp only [planIn, fullDfa, acceptsOf_withoutEmptyMatches, hnumbers, h.acceptsOf_ofNfa]
  · intro r c hc
    rw [Bool.eq_iff_iff]
    refine (excluded_iff hc).trans (Iff.trans ?_ (excluded_iff hc).symm)
    rw [getElem?_renumberRules]
    rcases compiled[r]? with _ | _ | rule <;> simp [CompiledRule.renumber]

/-- **Rules that are compiled into a larger automaton are matched alike.** -/
theorem planOn_agrees {f : Nat → Nat} {a b : Nfa} {compiled : List (Option CompiledRule)}
    (h : a.Embeds f b) (ha : a.Bounded) (hb : b.Bounded)
    (hstart : ∀ c, some c ∈ compiled → c.fragment.start < a.size) (g : Grammar)
    (roles : List Role) : ∃ sets sets', (planOn g roles compiled a).Agrees
      (planOn g roles (renumberRules f compiled) b) sets sets' := by
  have hentries : (List.range g.states.size).map (ruleEntries g (renumberRules f compiled))
        = ((List.range g.states.size).map (ruleEntries g compiled)).map (List.map f) := by
    rw [List.map_map]
    exact List.map_congr_left fun state _ => ruleEntries_renumber g compiled f state
  have htargets : ∀ ts ∈ (List.range g.states.size).map (ruleEntries g compiled),
      ∀ t ∈ ts, t < a.size := by
    intro ts hts t ht
    obtain ⟨state, -, rfl⟩ := List.mem_map.mp hts
    obtain ⟨i, -, c, -, hc, -, rfl⟩ := mem_ruleEntries.mp ht
    exact hstart c (List.mem_of_getElem? hc)
  have htargets' : ∀ ts ∈ ((List.range g.states.size).map (ruleEntries g compiled)).map (List.map f),
      ∀ t ∈ ts, t < b.size := by
    intro ts hts t ht
    obtain ⟨us, hus, rfl⟩ := List.mem_map.mp hts
    obtain ⟨u, hu, rfl⟩ := List.mem_map.mp ht
    exact h.lt_iff.mpr (htargets us hus u hu)
  obtain ⟨hstarts, hembeds⟩ :=
    embeds_addEntries ((List.range g.states.size).map (ruleEntries g compiled)) h
  have hover : Nfa.EmbedsOver _ f _ (readSets _ compiled) (readSets _ (renumberRules f compiled)) :=
    ⟨hembeds, ha.addEntries htargets, hb.addEntries htargets', mem_readSets_of_reading,
      mem_readSets_of_reading⟩
  have hagrees := hover.planIn_agrees g roles
    (addEntries ((List.range g.states.size).map (ruleEntries g compiled)) a).1
  rw [← hstarts, ← hentries] at hagrees
  exact ⟨_, _, hagrees⟩

end GrammarTables.Lexical
