import GrammarTables.Lexical.Cells
import GrammarTables.Proofs.Lexical.Subsets
import GrammarTables.Proofs.Rounds
/-
# Where a scanner may get stuck

`mayFail` marks a state if it is stuck before some class, or if it goes on without accepting to a
marked state (`Matcher.closed_mayFail`).  So an unmarked state is never stuck, and as long as it
accepts nothing it goes on to unmarked states only (`Matcher.mayFail_step`).  Whatever follows, a
scanner in an unmarked state comes to an acceptance.

From a marked state, and from no other, some word of classes fails before anything is accepted
(`Matcher.mayFail_iff`).  This determines the marks, so sweeps over all states that mark where
scanning fails come to rest at them too (`Matcher.restsAt_sweep`).
-/

namespace GrammarTables.Lexical

namespace Matcher

variable {m : Matcher}

/-! ## 1. Silent moves -/

/-- The state `s` as a silent predecessor by the class `k`, with the state it goes to. -/
def silentMove (m : Matcher) (s k : Nat) : Option (Nat × Nat) :=
  match m.acceptAt s k, m.dfa.step s k with
  | none, some t => some (t, s)
  | _, _ => none

theorem silentPredecessors_eq (m : Matcher) : m.silentPredecessors =
    (List.range m.dfa.size).foldl (fun preds s =>
      (List.range m.classes).foldl (gather (m.silentMove s)) preds)
        (Array.replicate m.dfa.size []) := by
  unfold silentPredecessors
  congr 1
  funext preds s
  congr 1
  funext preds k
  unfold gather silentMove
  cases m.acceptAt s k with
  | some r => rfl
  | none => cases m.dfa.step s k <;> rfl

theorem mem_silentPredecessors_iff {s t : Nat} : s ∈ m.silentPredecessors.getD t [] ↔
    t < m.dfa.size ∧ s < m.dfa.size ∧ ∃ k < m.classes, m.silentMove s k = some (t, s) := by
  rw [silentPredecessors_eq]
  have hrow : Collects (fun preds x => (List.range m.classes).foldl (gather (m.silentMove x)) preds)
      t s fun x => ∃ k ∈ List.range m.classes, m.silentMove x k = some (t, s) :=
    ⟨fun acc x => (collects_gather (m.silentMove x) t s).foldl.size acc _,
      fun acc x => (collects_gather (m.silentMove x) t s).foldl.mem acc _⟩
  rw [hrow.foldl.mem_replicate]
  simp only [List.mem_range]
  constructor
  · rintro ⟨ht, x, hx, k, hk, hmove⟩
    -- a state is recorded under its own number
    obtain rfl : x = s := by
      unfold silentMove at hmove
      split at hmove
      · exact congrArg Prod.snd (Option.some.inj hmove)
      · cases hmove
    exact ⟨ht, hx, k, hk, hmove⟩
  · rintro ⟨ht, hs, k, hk, hmove⟩
    exact ⟨ht, s, hs, k, hk, hmove⟩

theorem mem_silentPredecessors {s k t : Nat} (hs : s < m.dfa.size) (hk : k < m.classes)
    (ht : t < m.dfa.size) (haccept : m.acceptAt s k = none) (hstep : m.dfa.step s k = some t) :
    s ∈ m.silentPredecessors.getD t [] := by
  refine mem_silentPredecessors_iff.mpr ⟨ht, hs, k, hk, ?_⟩
  rw [silentMove, haccept, hstep]

/-! ## 2. Marks where scanning fails -/

theorem stuckAt_iff {s k : Nat} : m.stuckAt s k = true ↔ m.acceptAt s k = none ∧
    m.dfa.step s k = none ∧ ¬ (k = eoiClass ∧ s ∈ m.dfa.starts) := by
  simp [stuckAt, Dfa.isStart, and_assoc, imp_iff_not_or]

/-- Whether scanning fails in a state before a class, where `fails` marks states from which it fails
later. -/
def failsAt (m : Matcher) (fails : Array Bool) (s k : Nat) : Bool :=
  match m.acceptAt s k, m.dfa.step s k with
  | some _, _ => false
  | none, some t => fails.getD t false
  | none, none => !(k = eoiClass && m.dfa.isStart s)

theorem failsAt_iff {fails : Array Bool} {s k : Nat} : m.failsAt fails s k = true ↔
    m.acceptAt s k = none ∧ ((∃ t, m.dfa.step s k = some t ∧ Graph.Marked fails t) ∨
      m.dfa.step s k = none ∧ ¬ (k = eoiClass ∧ s ∈ m.dfa.starts)) := by
  unfold failsAt
  cases m.acceptAt s k with
  | some r => simp
  | none =>
    cases m.dfa.step s k with
    | some t => simp [Graph.marked_iff_getD]
    | none => simp [Dfa.isStart, imp_iff_not_or]

/-- The states in which scanning fails before some class are marked. -/
def ClosedFails (m : Matcher) (fails : Array Bool) : Prop :=
  ∀ s < m.dfa.size, ∀ k < m.classes, m.failsAt fails s k = true → Graph.Marked fails s

theorem closed_mayFail (m : Matcher) : m.ClosedFails m.mayFail := by
  intro s hs k hk hfails
  obtain ⟨haccept, ⟨t, hgo, hmarked⟩ | ⟨hnone, hend⟩⟩ := failsAt_iff.mp hfails
  · have ht : t < m.dfa.size := by simpa [mayFail] using Graph.lt_of_marked hmarked
    obtain ⟨v, hv, hlt, hleads⟩ := Graph.reach_iff.mp hmarked
    refine Graph.reach_iff.mpr ⟨v, hv, hlt, hleads.tail ⟨?_, hs⟩⟩
    exact mem_silentPredecessors hs hk ht haccept hgo
  · refine Graph.reach_iff.mpr ⟨s, List.mem_filter.mpr ⟨List.mem_range.mpr hs, ?_⟩, hs, .refl⟩
    exact List.any_eq_true.mpr
      ⟨k, List.mem_range.mpr hk, stuckAt_iff.mpr ⟨haccept, hnone, hend⟩⟩

/-- **An unmarked state is not stuck, and goes on to unmarked states until it accepts.** -/
theorem mayFail_step {s k : Nat} (hs : s < m.dfa.size) (hk : k < m.classes)
    (hunmarked : m.mayFail.getD s false = false) :
    m.stuckAt s k = false ∧ ∀ t, t < m.dfa.size → m.acceptAt s k = none → m.dfa.step s k = some t →
      m.mayFail.getD t false = false := by
  have hnot : m.failsAt m.mayFail s k ≠ true := fun h => by
    have hmarked := m.closed_mayFail s hs k hk h
    rw [Graph.marked_iff_getD, hunmarked] at hmarked
    cases hmarked
  constructor
  · refine Bool.eq_false_iff.mpr fun hstuck => hnot (failsAt_iff.mpr ?_)
    obtain ⟨haccept, hstuck⟩ := stuckAt_iff.mp hstuck
    exact ⟨haccept, Or.inr hstuck⟩
  · intro t _ haccept hstep
    refine Bool.eq_false_iff.mpr fun hmarked => hnot (failsAt_iff.mpr ?_)
    exact ⟨haccept, Or.inl ⟨t, hstep, Graph.marked_iff_getD.mpr hmarked⟩⟩

/-! ## 3. Words that fail -/

/-- **A word of classes fails**: no state on its way accepts a rule before the next class, and there
is no transition on the last class.  That a start does not go on at the end of the input is no
failure. -/
inductive FailsOn (m : Matcher) : Nat → List Nat → Prop
  | stuck {s k : Nat} : k < m.classes → m.acceptAt s k = none → m.dfa.step s k = none →
      ¬ (k = eoiClass ∧ s ∈ m.dfa.starts) → FailsOn m s [k]
  | read {s t k : Nat} {w : List Nat} : k < m.classes → m.acceptAt s k = none →
      m.dfa.step s k = some t → FailsOn m t w → FailsOn m s (k :: w)

/-- Only states from which some word fails are marked. -/
def SoundFails (m : Matcher) (fails : Array Bool) : Prop :=
  ∀ s, Graph.Marked fails s → ∃ w, m.FailsOn s w

theorem sound_mayFail (m : Matcher) : m.SoundFails m.mayFail := by
  intro s h
  obtain ⟨v, hv, -, hleads⟩ := Graph.reach_iff.mp h
  clear h
  induction hleads with
  | refl =>
    obtain ⟨-, hany⟩ := List.mem_filter.mp hv
    obtain ⟨k, hk, hstuck⟩ := List.any_eq_true.mp hany
    obtain ⟨haccept, hnone, hend⟩ := stuckAt_iff.mp hstuck
    exact ⟨[k], .stuck (List.mem_range.mp hk) haccept hnone hend⟩
  | tail _ hedge ih =>
    -- the state goes on to a marked one without accepting
    obtain ⟨w, hw⟩ := ih
    obtain ⟨-, -, k, hk, hmove⟩ := mem_silentPredecessors_iff.mp hedge.1
    unfold silentMove at hmove
    split at hmove
    · rename_i t haccept hgo
      cases hmove
      exact ⟨k :: w, .read hk haccept hgo hw⟩
    · cases hmove

section Words

variable (hstep : ∀ {s k t : Nat}, m.dfa.step s k = some t → t < m.dfa.size) {s : Nat}
  {fails : Array Bool}

include hstep in
/-- A state from which some word fails is marked: the mark goes back along the word. -/
theorem FailsOn.marked {w : List Nat} (h : m.FailsOn s w) (hclosed : m.ClosedFails fails)
    (hs : s < m.dfa.size) : Graph.Marked fails s := by
  induction h with
  | stuck hk haccept hnone hend =>
    exact hclosed _ hs _ hk (failsAt_iff.mpr ⟨haccept, Or.inr ⟨hnone, hend⟩⟩)
  | read hk haccept hgo _ ih =>
    exact hclosed _ hs _ hk (failsAt_iff.mpr ⟨haccept, Or.inl ⟨_, hgo, ih (hstep hgo)⟩⟩)

include hstep in
theorem marked_iff_failsOn (hsound : m.SoundFails fails) (hclosed : m.ClosedFails fails)
    (hs : s < m.dfa.size) : Graph.Marked fails s ↔ ∃ w, m.FailsOn s w :=
  ⟨hsound s, fun ⟨_, hw⟩ => hw.marked hstep hclosed hs⟩

include hstep in
/-- **The marked states are those from which some word fails.** -/
theorem mayFail_iff (hs : s < m.dfa.size) :
    m.mayFail.getD s false = true ↔ ∃ w, m.FailsOn s w := by
  rw [← Graph.marked_iff_getD]
  exact marked_iff_failsOn hstep m.sound_mayFail m.closed_mayFail hs

end Words

/-! ## 4. Sweeps over the states -/

/-- A sweep marks each state in which scanning fails before some class. -/
def sweep (m : Matcher) : Array Bool → Array Bool :=
  markRound id (fun fails s => (List.range m.classes).any (m.failsAt fails s))
    (List.range m.dfa.size)

theorem any_failsAt_iff {fails : Array Bool} {s : Nat} :
    (List.range m.classes).any (m.failsAt fails s) = true ↔
      ∃ k < m.classes, m.failsAt fails s k = true := by
  simp [List.any_eq_true]

section Sweeps

variable {fails : Array Bool}

theorem SoundFails.sweep (h : m.SoundFails fails) : m.SoundFails (m.sweep fails) := by
  refine forall_marked_markRound (fun s _ fails h hcond => ?_) h
  obtain ⟨k, hk, hfails⟩ := any_failsAt_iff.mp hcond
  obtain ⟨haccept, ⟨t, hgo, hmarked⟩ | ⟨hnone, hend⟩⟩ := failsAt_iff.mp hfails
  · obtain ⟨w, hw⟩ := h t hmarked
    exact ⟨k :: w, .read hk haccept hgo hw⟩
  · exact ⟨[k], .stuck hk haccept hnone hend⟩

/-- At rest, states in which scanning fails are marked. -/
theorem closed_of_sweep_eq (hrest : m.sweep fails = fails) (hsize : fails.size = m.dfa.size) :
    m.ClosedFails fails := by
  intro s hs k hk hfails
  refine closed_of_markRound_eq (fun hle h => ?_) hrest (List.mem_range.mpr hs)
    (any_failsAt_iff.mpr ⟨k, hk, hfails⟩) (hsize ▸ hs)
  -- more marks make scanning fail in more states
  obtain ⟨k, hk, hfails⟩ := any_failsAt_iff.mp h
  refine any_failsAt_iff.mpr ⟨k, hk, failsAt_iff.mpr ?_⟩
  refine (failsAt_iff.mp hfails).imp_right (Or.imp_left ?_)
  exact fun ⟨t, hgo, hmarked⟩ => ⟨t, hgo, hle t hmarked⟩

/-- **The sweeps come to rest at the marks.** -/
theorem restsAt_sweep (hstep : ∀ {s k t : Nat}, m.dfa.step s k = some t → t < m.dfa.size) :
    RestsAt m.sweep (Array.replicate m.dfa.size false) m.mayFail := by
  obtain ⟨k, -, hrest⟩ := exists_rest_marks m.sweep (fun _ => size_markRound _)
    (fun _ _ => marked_markRound _) (Array.replicate m.dfa.size false)
  have hrests := restsAt_of_rest hrest
  have hsize : _ = m.dfa.size := hrests.preserves (P := fun fails => fails.size = m.dfa.size)
    (fun _ h => (size_markRound _).trans h) Array.size_replicate
  have hsound : m.SoundFails _ := hrests.preserves (fun _ h => h.sweep) fun s hs => by
    simp [Graph.Marked, Array.getElem?_replicate] at hs
  have hclosed := closed_of_sweep_eq hrest hsize
  have hmarks : (m.mayFail).size = m.dfa.size := Graph.size_reach _ _ _
  -- both are marks of the states from which some word fails
  have hsame : m.sweep^[k] (Array.replicate m.dfa.size false) = m.mayFail := by
    refine Graph.marks_ext (hsize.trans hmarks.symm) fun s => ?_
    rcases Nat.lt_or_ge s m.dfa.size with hs | hs
    · rw [marked_iff_failsOn hstep hsound hclosed hs,
        marked_iff_failsOn hstep m.sound_mayFail m.closed_mayFail hs]
    · exact iff_of_false (fun h => Nat.not_lt.mpr hs (hsize ▸ Graph.lt_of_marked h))
        fun h => Nat.not_lt.mpr hs (hmarks ▸ Graph.lt_of_marked h)
  rwa [hsame] at hrests

end Sweeps

end Matcher

end GrammarTables.Lexical
