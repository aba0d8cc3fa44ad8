import GrammarTables.Lr.First
import GrammarTables.Proofs.Lr.Rewriting
import GrammarTables.Proofs.Rounds
/-
# What a symbol can begin with

First sets are sound if they hold of derivations (`FirstSets.Sound`) and closed if each production
is taken into account (`FirstSets.Closed`).  Sets that are both are exact: a sequence is nullable if
and only if it derives the empty sequence (`FirstSets.isNullable_iff`), and can begin with the
terminals that begin something it derives (`FirstSets.mem_ofSeq_iff`).  The sets of productions are
both (`FirstSets.sound_ofProductions`, `FirstSets.closed_ofProductions`).
-/

namespace GrammarTables.Lr

open GrammarTables.Graph (Marked Leads)

variable {p : Productions}

/-! ## 1. Nullable symbols -/

theorem allMarked_iff {marks : Array Bool} {xs : List Nat} :
    allMarked marks xs = true ↔ ∀ x ∈ xs, Marked marks x := by
  simp [allMarked, Graph.marked_iff_getD]

/-- A round marks the left side of each production whose right side is marked. -/
theorem nullableRound_eq (p : Productions) : nullableRound p =
    markRound p.leftOf (fun marks rule => allMarked marks (p.rightOf rule)) (List.range p.size) :=
  rfl

/-- The left side of each production whose right side is marked is marked. -/
def ClosedMarks (p : Productions) (marks : Array Bool) : Prop :=
  ∀ rule < p.size, (∀ y ∈ p.rightOf rule, Marked marks y) → Marked marks (p.leftOf rule)

/-- Only symbols that derive the empty sequence are marked. -/
def SoundMarks (p : Productions) (marks : Array Bool) : Prop :=
  ∀ x, Marked marks x → p.Derives [x] []

theorem nullableMarks_eq (p : Productions) : nullableMarks p =
    (nullableRound p)^[p.byLeft.size] (Array.replicate p.byLeft.size false) := by
  have hrepeat : ∀ k, Nat.repeat (nullableRound p) k (Array.replicate p.byLeft.size false) =
      (nullableRound p)^[k] (Array.replicate p.byLeft.size false) := by
    intro k
    induction k with
    | zero => rfl
    | succ k ih => rw [Function.iterate_succ_apply', ← ih, Nat.repeat]
  exact hrepeat _

theorem size_nullableMarks (p : Productions) : (nullableMarks p).size = p.byLeft.size := by
  rw [nullableMarks_eq]
  refine Function.Iterate.rec (fun marks : Array Bool => marks.size = p.byLeft.size)
    Array.size_replicate (fun marks h => ?_) _
  rwa [nullableRound_eq, size_markRound]

/-- Every symbol that is marked derives the empty sequence. -/
theorem sound_nullableMarks (p : Productions) : SoundMarks p (nullableMarks p) := by
  rw [nullableMarks_eq]
  refine Function.Iterate.rec (SoundMarks p) ?_ (fun marks h => ?_) _
  · intro x hx
    simp [Marked, Array.getElem?_replicate] at hx
  · rw [nullableRound_eq]
    refine forall_marked_markRound (fun rule hrule marks hmarks hright => ?_) h
    refine Productions.derives_of_rightOf (List.mem_range.mp hrule) ?_
    exact Productions.derives_nil_of_forall fun y hy => hmarks y (allMarked_iff.mp hright y hy)

/-- **The marks are closed when the rounds are over**: some round was idle. -/
theorem closed_nullableMarks (hp : p.Indexed) : ClosedMarks p (nullableMarks p) := by
  obtain ⟨k, hk, hrest⟩ := exists_rest_marks (nullableRound p)
    (fun _ => size_markRound _) (fun _ _ => marked_markRound _)
    (Array.replicate p.byLeft.size false)
  rw [Array.size_replicate] at hk
  have hrest : nullableRound p (nullableMarks p) = nullableMarks p := by
    rw [nullableMarks_eq, iterate_eq_of_rest hrest hk]
    exact hrest
  rw [nullableRound_eq] at hrest
  intro rule hrule hright
  refine closed_of_markRound_eq (fun hle h => ?_) hrest (List.mem_range.mpr hrule)
    (allMarked_iff.mpr hright) ?_
  · exact allMarked_iff.mpr fun x hx => hle x (allMarked_iff.mp h x hx)
  · exact (size_nullableMarks p).symm ▸ hp.leftOf_lt hrule

/-! ## 2. Leading symbols -/

namespace FirstSets

variable {marks : Array Bool} {f : FirstSets} {x y b rule : Nat} {xs ys : List Nat}

theorem mem_leading_append : y ∈ leading marks (xs ++ ys) ↔
    y ∈ leading marks xs ∨ (∀ x ∈ xs, Marked marks x) ∧ y ∈ leading marks ys := by
  induction xs with
  | nil => simp [leading]
  | cons x xs ih =>
    rw [List.cons_append, leading, leading]
    by_cases hx : Marked marks x
    · rw [if_pos (Graph.marked_iff_getD.mp hx), if_pos (Graph.marked_iff_getD.mp hx)]
      simp [ih, hx, or_assoc]
    · rw [if_neg (mt Graph.marked_iff_getD.mpr hx), if_neg (mt Graph.marked_iff_getD.mpr hx)]
      simp [hx]

theorem exists_of_mem_leading (h : y ∈ leading marks xs) :
    ∃ before after, xs = before ++ y :: after ∧ ∀ x ∈ before, Marked marks x := by
  induction xs with
  | nil => cases h
  | cons x xs ih =>
    rcases List.mem_cons.mp h with rfl | h
    · exact ⟨[], xs, rfl, by simp⟩
    · split at h
      · rename_i hx
        obtain ⟨before, after, rfl, hbefore⟩ := ih h
        refine ⟨x :: before, after, rfl, List.forall_mem_cons.mpr ⟨?_, hbefore⟩⟩
        exact Graph.marked_iff_getD.mpr hx
      · cases h

theorem mem_ofSeq : b ∈ f.ofSeq xs ↔ ∃ y ∈ leading f.nullable xs, b ∈ f.firstOf y := by
  rw [ofSeq, mem_ascending, List.mem_flatMap]

/-! ## 3. Nothing is invented -/

/-- **What first sets say holds of derivations.** -/
structure Sound (p : Productions) (f : FirstSets) : Prop where
  nullable : SoundMarks p f.nullable
  first : ∀ x, ∀ b ∈ f.firstOf x, b < p.terminals ∧ ∃ v, p.Derives [x] (b :: v)

theorem Sound.derives_of_isNullable (hf : f.Sound p) (h : f.isNullable xs = true) :
    p.Derives xs [] :=
  Productions.derives_nil_of_forall fun x hx => hf.nullable x (allMarked_iff.mp h x hx)

/-- A sequence derives what one of its leading symbols derives, and more after it. -/
theorem exists_derives_of_mem_leading (hmarks : SoundMarks p marks) (hy : y ∈ leading marks xs)
    (h : ∃ v, p.Derives [y] (b :: v)) : ∃ v, p.Derives xs (b :: v) := by
  obtain ⟨before, after, rfl, hbefore⟩ := exists_of_mem_leading hy
  obtain ⟨v, hv⟩ := h
  have hnil : p.Derives before [] :=
    Productions.derives_nil_of_forall fun x hx => hmarks x (hbefore x hx)
  exact ⟨v ++ after, hnil.append (hv.append (v := after) .refl)⟩

theorem Sound.exists_derives (hf : f.Sound p) (h : b ∈ f.ofSeq xs) :
    b < p.terminals ∧ ∃ v, p.Derives xs (b :: v) := by
  obtain ⟨y, hy, hb⟩ := mem_ofSeq.mp h
  obtain ⟨hlt, hderives⟩ := hf.first y b hb
  exact ⟨hlt, exists_derives_of_mem_leading hf.nullable hy hderives⟩

/-! ## 4. Nothing is missed -/

/-- **Each production is taken into account.** -/
structure Closed (p : Productions) (f : FirstSets) : Prop where
  nullable : ClosedMarks p f.nullable
  terminal : ∀ a < p.terminals, a ∈ f.firstOf a
  first : ∀ rule < p.size, ∀ y ∈ leading f.nullable (p.rightOf rule), ∀ b ∈ f.firstOf y,
    b ∈ f.firstOf (p.leftOf rule)

/-- What derives the empty sequence is marked: the induction goes against the steps. -/
theorem Closed.marked_of_derives (hf : f.Closed p) (h : p.Derives xs []) :
    ∀ x ∈ xs, Marked f.nullable x := by
  induction h using Relation.ReflTransGen.head_induction_on with
  | refl => simp
  | head hstep _ ih =>
    obtain ⟨u, v, hrule⟩ := hstep
    simp only [List.forall_mem_append, List.forall_mem_cons] at ih ⊢
    exact ⟨ih.1, hf.nullable _ hrule ih.2.1, ih.2.2⟩

/-- A terminal that begins something derived is found from one of the leading symbols. -/
theorem Closed.exists_leading (hf : f.Closed p) {v : List Nat} (hb : b < p.terminals)
    (h : p.Derives xs (b :: v)) : ∃ y ∈ leading f.nullable xs, b ∈ f.firstOf y := by
  induction h using Relation.ReflTransGen.head_induction_on with
  | refl => exact ⟨b, by simp [leading], hf.terminal b hb⟩
  | head hstep _ ih =>
    obtain ⟨u, v, hrule⟩ := hstep
    obtain ⟨y, hy, hfirst⟩ := ih
    rcases mem_leading_append.mp hy with hu | ⟨hu, hy⟩
    · exact ⟨y, mem_leading_append.mpr (Or.inl hu), hfirst⟩
    · rcases mem_leading_append.mp hy with hright | ⟨hright, hy⟩
      · refine ⟨_, mem_leading_append.mpr (Or.inr ⟨hu, ?_⟩), hf.first _ hrule y hright b hfirst⟩
        simp [leading]
      · refine ⟨y, mem_leading_append.mpr (Or.inr ⟨hu, ?_⟩), hfirst⟩
        rw [leading, if_pos (Graph.marked_iff_getD.mp (hf.nullable _ hrule hright))]
        exact List.mem_cons_of_mem _ hy

/-! ## 5. First sets that are sound and closed are exact -/

/-- **A sequence is nullable if and only if it derives the empty sequence.** -/
theorem isNullable_iff (hsound : f.Sound p) (hclosed : f.Closed p) :
    f.isNullable xs = true ↔ p.Derives xs [] :=
  ⟨hsound.derives_of_isNullable, fun h => allMarked_iff.mpr (hclosed.marked_of_derives h)⟩

/-- **The first terminals of a sequence are the terminals that begin something it derives.** -/
theorem mem_ofSeq_iff (hsound : f.Sound p) (hclosed : f.Closed p) :
    b ∈ f.ofSeq xs ↔ b < p.terminals ∧ ∃ v, p.Derives xs (b :: v) :=
  ⟨hsound.exists_derives, fun ⟨hb, _, hv⟩ => mem_ofSeq.mpr (hclosed.exists_leading hb hv)⟩

theorem mem_firstOf_iff (hsound : f.Sound p) (hclosed : f.Closed p) :
    b ∈ f.firstOf x ↔ b < p.terminals ∧ ∃ v, p.Derives [x] (b :: v) := by
  rw [← mem_ofSeq_iff hsound hclosed, mem_ofSeq]
  simp [leading]

/-! ## 6. The first sets of productions -/

/-- The symbols that a symbol can begin with. -/
def succOf (p : Productions) (x : Nat) : List Nat :=
  ((List.range p.byLeft.size).map (fun x =>
    (p.rulesOf x).flatMap fun rule => leading (nullableMarks p) (p.rightOf rule))).toArray.getD x []

theorem mem_succOf : y ∈ succOf p x ↔ x < p.byLeft.size ∧
    ∃ rule ∈ p.rulesOf x, y ∈ leading (nullableMarks p) (p.rightOf rule) := by
  rw [succOf, Array.getD_eq_getD_getElem?, List.getElem?_toArray, List.getElem?_map]
  rcases Nat.lt_or_ge x p.byLeft.size with hlt | hge
  · rw [List.getElem?_range hlt]
    simp [hlt]
  · rw [List.getElem?_eq_none (by simpa using hge)]
    simp [Nat.not_lt.mpr hge]

theorem firstOf_eq (hx : x < p.byLeft.size) : (ofProductions p).firstOf x =
    (Graph.reachable p.byLeft.size (succOf p) [x]).filter (· < p.terminals) := by
  have hfirst : (ofProductions p).first = ((List.range p.byLeft.size).map fun x =>
    (Graph.reachable p.byLeft.size (succOf p) [x]).filter (· < p.terminals)).toArray := rfl
  rw [firstOf, hfirst, Array.getD_eq_getD_getElem?, List.getElem?_toArray, List.getElem?_map,
    List.getElem?_range hx]
  rfl

theorem mem_firstOf (hx : x < p.byLeft.size) : b ∈ (ofProductions p).firstOf x ↔
    Leads p.byLeft.size (succOf p) x b ∧ b < p.terminals := by
  rw [firstOf_eq hx, List.mem_filter, Graph.mem_reachable, decide_eq_true_eq]
  simp [hx]

theorem lt_of_mem_firstOf (h : b ∈ (ofProductions p).firstOf x) : x < p.byLeft.size := by
  simpa [ofProductions] using lt_size_of_mem_getD h

/-- **Nothing is invented.** -/
theorem sound_ofProductions (hp : p.Indexed) : (ofProductions p).Sound p where
  nullable := sound_nullableMarks p
  first x b hb := by
    obtain ⟨hleads, hlt⟩ := (mem_firstOf (lt_of_mem_firstOf hb)).mp hb
    refine ⟨hlt, ?_⟩
    induction hleads using Relation.ReflTransGen.head_induction_on with
    | refl => exact ⟨[], .refl⟩
    | head hstep hleads ih =>
      obtain ⟨-, rule, hmem, hy⟩ := mem_succOf.mp hstep.1
      obtain ⟨hrule, rfl⟩ := hp.mem_rulesOf.mp hmem
      obtain ⟨v, hv⟩ := exists_derives_of_mem_leading (sound_nullableMarks p) hy
        (ih ((mem_firstOf hstep.2).mpr ⟨hleads, hlt⟩))
      exact ⟨v, Productions.derives_of_rightOf hrule hv⟩

/-- **Nothing is missed.** -/
theorem closed_ofProductions (hp : p.Indexed) : (ofProductions p).Closed p where
  nullable := closed_nullableMarks hp
  terminal a ha := (mem_firstOf (Nat.lt_of_lt_of_le ha hp.terminals_le)).mpr ⟨.refl, ha⟩
  first rule hrule y hy b hb := by
    have hlt := hp.leftOf_lt hrule
    obtain ⟨hleads, hterminal⟩ := (mem_firstOf (lt_of_mem_firstOf hb)).mp hb
    have hsucc : y ∈ succOf p (p.leftOf rule) :=
      mem_succOf.mpr ⟨hlt, rule, hp.mem_rulesOf.mpr ⟨hrule, rfl⟩, hy⟩
    exact (mem_firstOf hlt).mpr ⟨.head ⟨hsucc, lt_of_mem_firstOf hb⟩ hleads, hterminal⟩

/-- The empty string is not missed. -/
theorem isNullable_of_yields (hp : p.Proper) (h : p.Yields xs []) :
    (ofProductions p).isNullable xs = true :=
  (isNullable_iff (sound_ofProductions hp.indexed) (closed_ofProductions hp.indexed)).mpr
    (h.derives hp.indexed).1

/-- No first terminal is missed. -/
theorem mem_ofSeq_of_yields (hp : p.Proper) {w : List Nat} (h : p.Yields xs (b :: w)) :
    b ∈ (ofProductions p).ofSeq xs := by
  obtain ⟨hderives, hterminals⟩ := h.derives hp.indexed
  exact (mem_ofSeq_iff (sound_ofProductions hp.indexed) (closed_ofProductions hp.indexed)).mpr
    ⟨hterminals b (by simp), w, hderives⟩

end FirstSets

end GrammarTables.Lr
