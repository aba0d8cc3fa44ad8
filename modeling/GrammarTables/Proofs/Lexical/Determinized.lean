import GrammarTables.Proofs.Lexical.Partition
import GrammarTables.Proofs.Lexical.Recognizer
import GrammarTables.Proofs.Rounds
/-
# The subset construction is exact

For every automaton over classes (`ClassNfa.Proper`) and every ranking of rules the construction
comes to an end, and a word of classes leads from the start of a lexer state to the set of all
states that the automaton reaches by the word (`ClassNfa.Reads`), which accepts the rules that one
of them accepts, the best first.  Where no move enters the start of a lexer state, no transition
leads back to a start (`Dfa.ofNfa_exact`).
-/

namespace GrammarTables

/-! ## 1. The exploration ends -/

namespace Graph

variable {κ : Type} [DecidableEq κ] {next : κ → List (Nat × κ)} {d : Discovery κ}

/-- One turn of the exploration: the first key without a row is expanded, if there is one. -/
def Discovery.turn (next : κ → List (Nat × κ)) (d : Discovery κ) : Discovery κ :=
  match d.keys[d.rows.size]? with
  | none => d
  | some k => d.grow next k

theorem expand_eq_iterate (bound : Nat) :
    expand next bound d = (Discovery.turn next)^[bound] d := by
  induction bound generalizing d with
  | zero => rfl
  | succ bound ih =>
    rw [expand_succ, Function.iterate_succ_apply]
    cases hk : d.keys[d.rows.size]? with
    | none =>
      have hturn : d.turn next = d := by rw [Discovery.turn, hk]
      rw [hturn, Function.iterate_fixed hturn]
    | some k =>
      have hturn : d.turn next = d.grow next k := by rw [Discovery.turn, hk]
      rw [hturn]
      exact ih

/-- The exploration ends when each key has a row. -/
theorem Explores.restsAt_turn {starts : List κ} {bound : Nat}
    (h : Explores next starts (explore bound next starts).1 (explore bound next starts).2) :
    RestsAt (Discovery.turn next) ⟨(internAll #[] starts).2, #[]⟩
      (explore bound next starts).2 := by
  have hlast : (explore bound next starts).2
      = (Discovery.turn next)^[bound] ⟨(internAll #[] starts).2, #[]⟩ := expand_eq_iterate bound
  have hrest : Discovery.turn next (explore bound next starts).2
      = (explore bound next starts).2 := by
    rw [Discovery.turn, h.size_rows, Array.getElem?_size]
  rw [hlast] at hrest ⊢
  exact restsAt_of_rest hrest

end Graph

namespace Lexical

/-! ## 2. What an automaton reads -/

namespace ClassNfa

/-- The tables of an automaton belong together, and its moves read classes and lead to its
states. -/
structure Proper (a : ClassNfa) (classes : Nat) : Prop where
  size_moves : a.moves.size = a.silent.size
  size_accept : a.accept.size = a.silent.size
  silent_lt : ∀ {s t : Nat}, t ∈ a.silent.getD s [] → t < a.silent.size
  moves_lt : ∀ {s k t : Nat}, (k, t) ∈ a.moves.getD s [] → k < classes ∧ t < a.silent.size

/-- **A state is reached from another over a word of classes**, by moves that read the word and any
number of silent ones. -/
inductive Reads (a : ClassNfa) : Nat → List Nat → Nat → Prop
  | refl (s : Nat) : Reads a s [] s
  | silent {s t u : Nat} {w : List Nat} : t ∈ a.silent.getD s [] → Reads a t w u → Reads a s w u
  | move {s k t u : Nat} {w : List Nat} : (k, t) ∈ a.moves.getD s [] → Reads a t w u →
      Reads a s (k :: w) u

/-- A state that a move enters. -/
def Entered (a : ClassNfa) (t : Nat) : Prop :=
  ∃ s, t ∈ a.silent.getD s [] ∨ ∃ k, (k, t) ∈ a.moves.getD s []

variable {a : ClassNfa} {classes s t u k : Nat} {v w seeds set : List Nat}

theorem Reads.trans (h : a.Reads s v t) (h' : a.Reads t w u) : a.Reads s (v ++ w) u := by
  induction h with
  | refl => exact h'
  | silent hs _ ih => exact .silent hs (ih h')
  | move hs _ ih => exact .move hs (ih h')

/-- A word is read by its first class and the others, with silent moves before. -/
theorem reads_cons : a.Reads s (k :: w) u ↔
    ∃ t, a.Reads s [] t ∧ ∃ t', (k, t') ∈ a.moves.getD t [] ∧ a.Reads t' w u := by
  constructor
  · generalize hword : k :: w = word
    intro h
    induction h with
    | refl => cases hword
    | silent hs _ ih =>
      obtain ⟨t, ht, hmove⟩ := ih hword
      exact ⟨t, .silent hs ht, hmove⟩
    | move hs h =>
      cases hword
      exact ⟨_, .refl _, _, hs, h⟩
  · rintro ⟨t, ht, t', hmove, h⟩
    exact ht.trans (.move hmove h)

/-- What silent moves lead to is entered, if it is another state. -/
theorem Reads.eq_or_entered (h : a.Reads s [] t) : t = s ∨ a.Entered t := by
  generalize hword : ([] : List Nat) = word at h
  induction h with
  | refl => exact Or.inl rfl
  | @silent s _ _ _ hs _ ih =>
    rcases ih hword with rfl | hentered
    · exact Or.inr ⟨s, Or.inl hs⟩
    · exact Or.inr hentered
  | move => cases hword

theorem leads_iff (ha : a.Proper classes) :
    Graph.Leads a.silent.size (fun s => a.silent.getD s []) s t ↔ a.Reads s [] t := by
  constructor
  · intro h
    induction h using Relation.ReflTransGen.head_induction_on with
    | refl => exact .refl t
    | head hstep _ ih => exact .silent hstep.1 ih
  · have hsilent : ∀ {s w t}, a.Reads s w t → w = [] →
        Graph.Leads a.silent.size (fun s => a.silent.getD s []) s t := by
      intro s w t h
      induction h with
      | refl => exact fun _ => .refl
      | silent hs _ ih => exact fun hw => .head ⟨hs, ha.silent_lt hs⟩ (ih hw)
      | move => exact fun hw => absurd hw (List.cons_ne_nil _ _)
    exact fun h => hsilent h rfl

theorem mem_closure (ha : a.Proper classes) :
    t ∈ a.closure seeds ↔ ∃ s ∈ seeds, s < a.silent.size ∧ a.Reads s [] t := by
  rw [closure, Graph.mem_reachable]
  simp only [leads_iff ha]

theorem self_mem_closure (ha : a.Proper classes) (hs : s < a.silent.size) : s ∈ a.closure [s] :=
  (mem_closure ha).mpr ⟨s, by simp, hs, .refl s⟩

/-- What the states of a start read is what its first state reads. -/
theorem reads_closure (ha : a.Proper classes) (hs : s < a.silent.size) :
    (∃ s' ∈ a.closure [s], a.Reads s' w t) ↔ a.Reads s w t := by
  constructor
  · rintro ⟨s', hs', hrest⟩
    obtain ⟨s'', hs'', -, hsilent⟩ := (mem_closure ha).mp hs'
    rw [List.mem_singleton.mp hs''] at hsilent
    exact hsilent.trans hrest
  · exact fun hrest => ⟨s, self_mem_closure ha hs, hrest⟩

/-! ## 3. Sets of states -/

/-- A set of states as the construction has them: some states in order, with all that silent moves
lead to. -/
structure ClosedSet (a : ClassNfa) (set : List Nat) : Prop where
  nonempty : ∃ s, s ∈ set
  ascending : set.Pairwise (· < ·)
  closed : ∀ s ∈ set, ∀ t, a.Reads s [] t → t ∈ set

theorem closedSet_closure (ha : a.Proper classes) (hs : s ∈ seeds) (hlt : s < a.silent.size) :
    a.ClosedSet (a.closure seeds) where
  nonempty := ⟨s, (mem_closure ha).mpr ⟨s, hs, hlt, .refl s⟩⟩
  ascending := Graph.pairwise_reachable _ _ _
  closed t ht u hu := by
    obtain ⟨s, hs, hlt, hreads⟩ := (mem_closure ha).mp ht
    exact (mem_closure ha).mpr ⟨s, hs, hlt, hreads.trans hu⟩

/-- What follows a set over a class and a word is what its states reach over both. -/
theorem ClosedSet.reads_follow (hset : a.ClosedSet set) (ha : a.Proper classes) :
    (∃ s ∈ a.closure ((a.targets classes set).getD k []), a.Reads s w u) ↔
      ∃ s ∈ set, a.Reads s (k :: w) u := by
  constructor
  · rintro ⟨s, hs, hreads⟩
    obtain ⟨t, ht, -, hsilent⟩ := (mem_closure ha).mp hs
    obtain ⟨-, s', hs', hmove⟩ := mem_targets.mp ht
    exact ⟨s', hs', .move hmove (hsilent.trans hreads)⟩
  · rintro ⟨s, hs, hreads⟩
    obtain ⟨t, ht, t', hmove, hrest⟩ := reads_cons.mp hreads
    have hlt := ha.moves_lt hmove
    have hmem := mem_targets.mpr ⟨hlt.1, t, hset.closed s hs t ht, hmove⟩
    exact ⟨t', (mem_closure ha).mpr ⟨t', hmem, hlt.2, .refl t'⟩, hrest⟩

end ClassNfa

/-! ## 4. Words -/

namespace Subsets

variable {a : ClassNfa} {starts : List Nat} {classes : Nat} {before : Nat → Nat → Bool} {d : Dfa}
  {n m k : Nat} {set w : List Nat}

/-- **A word leads from a set to the set of all states that it is read to.** -/
theorem run_some (h : Subsets a starts classes before d) (ha : a.Proper classes)
    (hn : d.sets[n]? = some set) (hset : a.ClosedSet set) (hrun : d.run n w = some m) :
    ∃ set', d.sets[m]? = some set' ∧ a.ClosedSet set' ∧
      ∀ t, t ∈ set' ↔ ∃ s ∈ set, a.Reads s w t := by
  induction w generalizing n set with
  | nil =>
    obtain rfl : n = m := Option.some.inj hrun
    refine ⟨set, hn, hset, fun t => ⟨fun ht => ⟨t, ht, .refl t⟩, ?_⟩⟩
    rintro ⟨s, hs, hreads⟩
    exact hset.closed s hs t hreads
  | cons k w ih =>
    obtain ⟨n', hstep, hrest⟩ := Option.bind_eq_some_iff.mp hrun
    obtain ⟨hk, ⟨t, hmoves⟩, hn'⟩ := h.step_some hn hstep
    have hlt : t < a.silent.size := by
      obtain ⟨s, -, hmove⟩ := hmoves
      exact (ha.moves_lt hmove).2
    have hset' := ClassNfa.closedSet_closure ha (ClassNfa.mem_targets.mpr ⟨hk, hmoves⟩) hlt
    obtain ⟨set', hm, hclosed, hmem⟩ := ih hn' hset' hrest
    exact ⟨set', hm, hclosed, fun t => (hmem t).trans (hset.reads_follow ha)⟩

/-- **A word that leads nowhere is not read from any state of the set.** -/
theorem run_none (h : Subsets a starts classes before d) (ha : a.Proper classes)
    (hn : d.sets[n]? = some set) (hset : a.ClosedSet set) (hrun : d.run n w = none) :
    ∀ s ∈ set, ∀ t, ¬ a.Reads s w t := by
  induction w generalizing n set with
  | nil => cases hrun
  | cons k w ih =>
    intro s hs t hreads
    obtain ⟨u, hu, u', hmove, hrest⟩ := ClassNfa.reads_cons.mp hreads
    have hmoves : a.Moves set k u' := ⟨u, hset.closed s hs u hu, hmove⟩
    have hlt := ha.moves_lt hmove
    cases hstep : d.step n k with
    | none => exact h.step_none hn hlt.1 hstep hmoves
    | some n' =>
      obtain ⟨hk, -, hn'⟩ := h.step_some hn hstep
      have hmem := ClassNfa.mem_targets.mpr ⟨hk, hmoves⟩
      have hset' := ClassNfa.closedSet_closure ha hmem hlt.2
      have hrun' : d.run n' w = none := by
        have hbind : (d.step n k).bind (fun n' => d.run n' w) = none := hrun
        rwa [hstep, Option.bind_some] at hbind
      have hstart := (ClassNfa.mem_closure ha).mpr ⟨u', hmem, hlt.2, .refl u'⟩
      exact ih hn' hset' hrun' u' hstart t hrest

/-! ## 5. Starts -/

theorem length_starts (h : Subsets a starts classes before d) :
    d.starts.length = starts.length := by
  simpa using congrArg List.length h.starts_eq

/-- The start of a lexer state stands for the start of the automaton and all that silent moves lead
to. -/
theorem exists_start (h : Subsets a starts classes before d) {i s : Nat}
    (hs : starts[i]? = some s) :
    ∃ n, d.starts[i]? = some n ∧ d.sets[n]? = some (a.closure [s]) := by
  have hi := congrArg (fun l => l[i]?) h.starts_eq
  simp only [List.getElem?_map, hs, Option.map_some] at hi
  obtain ⟨n, hn, hset⟩ := Option.map_eq_some_iff.mp hi
  exact ⟨n, hn, hset⟩

theorem exists_of_start (h : Subsets a starts classes before d) {i n : Nat}
    (hn : d.starts[i]? = some n) :
    ∃ s, starts[i]? = some s ∧ d.sets[n]? = some (a.closure [s]) := by
  have hi := congrArg (fun l => l[i]?) h.starts_eq
  simp only [List.getElem?_map, hn, Option.map_some] at hi
  obtain ⟨s, hs, hset⟩ := Option.map_eq_some_iff.mp hi.symm
  exact ⟨s, hs, hset.symm⟩

/-- **A word leads from a start to the set of all states that the automaton reads it to.** -/
theorem exists_set_of_run (h : Subsets a starts classes before d) (ha : a.Proper classes) {s : Nat}
    (hs : s < a.silent.size) (hn : d.sets[n]? = some (a.closure [s]))
    (hrun : d.run n w = some m) :
    ∃ set, d.sets[m]? = some set ∧ a.ClosedSet set ∧ ∀ t, t ∈ set ↔ a.Reads s w t := by
  obtain ⟨set, hm, hset, hmem⟩ :=
    h.run_some ha hn (ClassNfa.closedSet_closure ha (List.mem_singleton_self s) hs) hrun
  exact ⟨set, hm, hset, fun t => (hmem t).trans (ClassNfa.reads_closure ha hs)⟩

/-- **A word leads somewhere from a start if and only if the automaton reads it.** -/
theorem exists_run_iff (h : Subsets a starts classes before d) (ha : a.Proper classes) {s : Nat}
    (hs : s < a.silent.size) (hn : d.sets[n]? = some (a.closure [s])) :
    (∃ m, d.run n w = some m) ↔ ∃ t, a.Reads s w t := by
  constructor
  · rintro ⟨m, hrun⟩
    obtain ⟨set, -, hset, hmem⟩ := h.exists_set_of_run ha hs hn hrun
    obtain ⟨t, ht⟩ := hset.nonempty
    exact ⟨t, (hmem t).mp ht⟩
  · rintro ⟨t, ht⟩
    refine Option.ne_none_iff_exists'.mp fun hnone => ?_
    have hset := ClassNfa.closedSet_closure ha (List.mem_singleton_self s) hs
    exact h.run_none ha hn hset hnone s (ClassNfa.self_mem_closure ha hs) t ht

/-- Where no move enters a start, the set of one has that start and no other. -/
theorem mem_closure_start (ha : a.Proper classes) (hentered : ∀ s ∈ starts, ¬ a.Entered s)
    {s t : Nat} (ht : t ∈ starts) (hmem : t ∈ a.closure [s]) : t = s := by
  obtain ⟨s', hs', -, hreads⟩ := (ClassNfa.mem_closure ha).mp hmem
  rw [← List.mem_singleton.mp hs']
  exact hreads.eq_or_entered.resolve_right (hentered t ht)

/-- **Where no move enters a start, different lexer states have different starts.** -/
theorem start_injective (h : Subsets a starts classes before d) (ha : a.Proper classes)
    (hstarts : ∀ s ∈ starts, s < a.silent.size) (hentered : ∀ s ∈ starts, ¬ a.Entered s)
    {i j : Nat} (hi : d.starts[i]? = some n) (hj : d.starts[j]? = some n) :
    starts[i]? = starts[j]? := by
  obtain ⟨s, hs, hset⟩ := h.exists_of_start hi
  obtain ⟨t, ht, hset'⟩ := h.exists_of_start hj
  have hmem := List.mem_of_getElem? hs
  have hself := ClassNfa.self_mem_closure ha (hstarts s hmem)
  rw [hset, Option.some.injEq] at hset'
  rw [hs, ht, mem_closure_start ha hentered hmem (hset' ▸ hself)]

/-- **Where no move enters a start, no transition does.** -/
theorem not_mem_starts_of_step (h : Subsets a starts classes before d) (ha : a.Proper classes)
    (hstarts : ∀ s ∈ starts, s < a.silent.size) (hentered : ∀ s ∈ starts, ¬ a.Entered s)
    (hstep : d.step n k = some m) : m ∉ d.starts := by
  intro hm
  obtain ⟨i, hi⟩ := List.mem_iff_getElem?.mp hm
  obtain ⟨s, hs, hset⟩ := h.exists_of_start hi
  have hmem := List.mem_of_getElem? hs
  have hlt : n < d.sets.size := h.step_lt hstep
  obtain ⟨-, -, hset'⟩ := h.step_some (Array.getElem?_eq_getElem hlt) hstep
  have hself := ClassNfa.self_mem_closure ha (hstarts s hmem)
  rw [hset, Option.some.injEq] at hset'
  rw [hset'] at hself
  -- the start is one of the targets, or silent moves lead to it
  obtain ⟨t, ht, -, hreads⟩ := (ClassNfa.mem_closure ha).mp hself
  refine hentered s hmem ?_
  rcases hreads.eq_or_entered with rfl | hentered
  · obtain ⟨-, u, -, hmove⟩ := ClassNfa.mem_targets.mp ht
    exact ⟨u, Or.inr ⟨_, hmove⟩⟩
  · exact hentered

end Subsets

/-! ## 6. The construction -/

/-- **The subset construction is exact.**  It ends.  From the start of a lexer state a word leads
somewhere if and only if the automaton reads it to some state, and then to the state that stands for
all these states in order and accepts the rules they accept, ordered by rank and number.  Where no
move enters the start of a lexer state, different ones have different starts, and no transition
leads to a start. -/
theorem Dfa.ofNfa_exact {κ : Type} [LinearOrder κ] {a : ClassNfa} {starts : List Nat}
    {classes : Nat} (ha : a.Proper classes) (hstarts : ∀ s ∈ starts, s < a.silent.size)
    (rank : Nat → κ) :
    let d := ofNfa a starts classes (rankedBefore rank)
    (∃ found, RestsAt (Graph.Discovery.turn (a.next classes))
        ⟨(internAll #[] (starts.map fun s => a.closure [s])).2, #[]⟩ found ∧
      d.sets = found.keys ∧ d.rows = found.rows.map (rowOf classes)) ∧
    d.starts.length = starts.length ∧
    (∀ i s : Nat, starts[i]? = some s → ∃ n₀, d.starts[i]? = some n₀ ∧ ∀ w,
      ((∃ n, d.run n₀ w = some n) ↔ ∃ t, a.Reads s w t) ∧
      ∀ n, d.run n₀ w = some n →
        (∃ set, d.sets[n]? = some set ∧ set.Pairwise (· < ·) ∧ ∀ t, t ∈ set ↔ a.Reads s w t) ∧
        (d.acceptsOf n).Pairwise (fun r r' => rank r < rank r' ∨ rank r = rank r' ∧ r < r') ∧
        ∀ r, r ∈ d.acceptsOf n ↔ ∃ t, a.Reads s w t ∧ a.accept[t]? = some (some r)) ∧
    ((∀ s ∈ starts, ¬ a.Entered s) →
      (∀ i j n : Nat, d.starts[i]? = some n → d.starts[j]? = some n → starts[i]? = starts[j]?) ∧
      ∀ n k m, d.step n k = some m → m ∉ d.starts) := by
  intro d
  have h : Subsets a starts classes (rankedBefore rank) d := ofNfa_subsets _ _ _ _
  refine ⟨⟨_, (a.explores_next starts classes).restsAt_turn, rfl, rfl⟩, h.length_starts, ?_,
    fun hentered => ⟨fun _ _ _ => h.start_injective ha hstarts hentered,
      fun _ _ _ => h.not_mem_starts_of_step ha hstarts hentered⟩⟩
  intro i s hs
  obtain ⟨n₀, hn₀, hset₀⟩ := h.exists_start hs
  have hlt := hstarts s (List.mem_of_getElem? hs)
  have hranks := ranks_rankedBefore rank
  refine ⟨n₀, hn₀, fun w => ⟨h.exists_run_iff ha hlt hset₀, fun n hn => ?_⟩⟩
  obtain ⟨set, hset, hclosed, hmem⟩ := h.exists_set_of_run ha hlt hset₀ hn
  refine ⟨⟨set, hset, hclosed.ascending, hmem⟩,
    (h.pairwise_acceptsOf hranks hset).imp rankedBefore_iff.mp, fun r => ?_⟩
  rw [h.mem_acceptsOf hranks hset]
  refine exists_congr fun t => and_congr (hmem t) ?_
  rw [Array.getD_eq_getD_getElem?]
  cases a.accept[t]? with
  | none => simp
  | some o => simp

/-- An automaton for two rules that begin with the same class. -/
def prefixNfa : ClassNfa where
  silent := #[[1, 4], [], [], [], [], [], []]
  moves := #[[], [(1, 2)], [(2, 3)], [], [(1, 5)], [(3, 6)], []]
  accept := #[none, none, none, some 0, none, none, some 1]

theorem proper_prefixNfa : prefixNfa.Proper 4 where
  size_moves := rfl
  size_accept := rfl
  silent_lt {s t} ht := by
    have hrows : ∀ s < 7, ∀ t ∈ prefixNfa.silent.getD s [], t < 7 := by decide
    exact hrows s (lt_size_of_mem_getD ht) t ht
  moves_lt {s k t} hm := by
    have hrows : ∀ s < 7, ∀ m ∈ prefixNfa.moves.getD s [], m.1 < 4 ∧ m.2 < 7 := by decide
    exact hrows s (lt_size_of_mem_getD hm) (k, t) hm

/-- The rules are told apart by their second class, and nothing leads back to the start. -/
theorem Dfa.ofNfa_exact_prefixes : prefixNfa.Proper 4 ∧ (∀ s ∈ [0], s < prefixNfa.silent.size) ∧
    (∀ s ∈ [0], ¬ prefixNfa.Entered s) ∧
    ∃ n₀, (ofNfa prefixNfa [0] 4 (rankedBefore id)).starts[0]? = some n₀ ∧
      (∃ n, (ofNfa prefixNfa [0] 4 (rankedBefore id)).run n₀ [1, 2] = some n ∧
        0 ∈ (ofNfa prefixNfa [0] 4 (rankedBefore id)).acceptsOf n) ∧
      ∀ n k m, (ofNfa prefixNfa [0] 4 (rankedBefore id)).step n k = some m →
        m ∉ (ofNfa prefixNfa [0] 4 (rankedBefore id)).starts := by
  have hstarts : ∀ s ∈ [0], s < prefixNfa.silent.size := by decide
  have hentered : ∀ s ∈ [0], ¬ prefixNfa.Entered s := by
    rintro t ht ⟨s, hs⟩
    rw [List.mem_singleton.mp ht] at hs
    have hrows : ∀ s < 7, 0 ∉ prefixNfa.silent.getD s [] ∧
        ∀ m ∈ prefixNfa.moves.getD s [], m.2 ≠ 0 := by decide
    rcases hs with hs | ⟨k, hs⟩
    · exact (hrows s (lt_size_of_mem_getD hs)).1 hs
    · exact (hrows s (lt_size_of_mem_getD hs)).2 _ hs rfl
  obtain ⟨-, -, hruns, hback⟩ := Dfa.ofNfa_exact proper_prefixNfa hstarts id
  obtain ⟨n₀, hn₀, hwords⟩ := hruns 0 0 rfl
  have hreads : prefixNfa.Reads 0 [1, 2] 3 :=
    .silent (t := 1) (by decide) (.move (t := 2) (by decide) (.move (by decide) (.refl 3)))
  obtain ⟨n, hn⟩ := (hwords [1, 2]).1.mpr ⟨3, hreads⟩
  exact ⟨proper_prefixNfa, hstarts, hentered, n₀, hn₀,
    ⟨n, hn, (((hwords [1, 2]).2 n hn).2.2 0).mpr ⟨3, hreads, rfl⟩⟩, (hback hentered).2⟩

/-! ## 7. The automaton of a plan -/

theorem proper_classNfa {a : Nfa} (ha : a.Bounded) (sets : List CharSet)
    (compiled : List (Option CompiledRule)) :
    (classNfa a (.of sets) compiled).Proper (Alphabet.of sets).count where
  size_moves := by
    have h := (collects_modify (fun m : (Nat × CharSet × Nat) × Nat => m.1.1)
      (fun m => (((internAll #[] (a.reading.map fun m => m.2.1)).2.map
        (Alphabet.of sets).classesOf).getD m.2 []).map (·, m.1.2.2)) 0 (0, 0)).foldl.size
      (Array.replicate a.size [])
      (a.reading.zip (internAll #[] (a.reading.map fun m => m.2.1)).1)
    rw [Array.size_replicate] at h
    exact h.trans size_silent_classNfa.symm
  size_accept := by
    rw [size_silent_classNfa, accept_eq, size_foldl_put, Array.size_replicate]
  silent_lt ht := by
    rw [size_silent_classNfa]
    exact (ha.silent (mem_silent_classNfa.mp ht).2).2
  moves_lt hm := by
    obtain ⟨-, set, hread, hk⟩ := mem_moves_classNfa.mp hm
    rw [size_silent_classNfa]
    exact ⟨Alphabet.lt_count_of_mem_classesOf hk, (ha.reading hread).2⟩

/-- **The automaton of a plan is a subset construction** for which all of this holds: the rules are
ranked by their priority, the highest first, each lexer state has its own start, and no move enters
one. -/
theorem planFor_full (g : Grammar) (roles : List Role) :
    ∃ a starts, (planFor g roles).full = .ofNfa a starts (planFor g roles).alphabet.count
        (rankedBefore fun i => -(g.lexicalRules[i]?.map (·.priority)).getD 0) ∧
      a.Proper (planFor g roles).alphabet.count ∧
      starts.length = g.states.size ∧ starts.Nodup ∧
      ∀ s ∈ starts, s < a.silent.size ∧ ¬ a.Entered s := by
  obtain ⟨compiled, a, base, starts, sets, h⟩ := exists_parts g roles
  have hproper := proper_classNfa h.bounded sets compiled
  rw [h.plan_eq]
  refine ⟨classNfa a (.of sets) compiled, starts, ?_, hproper, by simp [h.starts_eq], ?_, ?_⟩
  · rw [← ranksBefore_eq]
    rfl
  · rw [h.starts_eq]
    exact List.nodup_range.map fun _ _ h => Nat.add_left_cancel h
  · intro s hs
    rw [h.starts_eq, List.mem_map] at hs
    obtain ⟨q, hq, rfl⟩ := hs
    have hq := List.mem_range.mp hq
    refine ⟨by rw [size_silent_classNfa, h.size_eq]; omega, ?_⟩
    rintro ⟨s, hsilent | ⟨k, hmove⟩⟩
    · have hlt : base + q < base := h.silent_lt _ (mem_silent_classNfa.mp hsilent).2
      omega
    · obtain ⟨-, set, hread, -⟩ := mem_moves_classNfa.mp hmove
      have hlt : base + q < base := h.reading_lt _ hread
      omega

end Lexical

end GrammarTables
