import GrammarTables.Lexical.Alphabet
import GrammarTables.Proofs.CharSet
import GrammarTables.Proofs.Ordered
/-
# Going along intervals

The interval of a code point is the last that begins at the code point or before
(`intervalAt_eq`, `exists_last_le`).  A range of one of the given sets begins at a cut and ends
before one, so going along its intervals meets those that begin in the range and no others
(`mem_walk`), each interval is met by one range of a set at most, and the sets noted for an interval
are those that its first code point lies in (`signatures_eq`).
-/

namespace GrammarTables.Lexical

/-! ## 1. Intervals -/

/-- The last member up to `c` of an ascending list. -/
theorem exists_last_le {ns : List Nat} (h : ns.Pairwise (· < ·)) {c m : Nat} (hm : m ∈ ns)
    (hle : m ≤ c) : ∃ n, ns[ns.countP (· ≤ c) - 1]? = some n ∧ n ≤ c ∧ ∀ x ∈ ns, x ≤ c → x ≤ n := by
  induction ns generalizing m with
  | nil => simp at hm
  | cons a rest ih =>
    obtain ⟨ha, hrest⟩ := List.pairwise_cons.mp h
    have hac : a ≤ c := by
      rcases List.mem_cons.mp hm with rfl | hm
      · exact hle
      · have := ha m hm
        omega
    rw [List.countP_cons_of_pos (by simpa using hac), Nat.add_sub_cancel]
    by_cases hmore : ∃ x ∈ rest, x ≤ c
    · obtain ⟨x, hx, hxc⟩ := hmore
      obtain ⟨n, hn, hnc, hmax⟩ := ih hrest hx hxc
      have hpos : 0 < rest.countP (· ≤ c) :=
        List.countP_pos_iff.mpr ⟨x, hx, by simpa using hxc⟩
      refine ⟨n, ?_, hnc, ?_⟩
      · obtain ⟨k, hk⟩ : ∃ k, rest.countP (· ≤ c) = k + 1 := ⟨_, (Nat.sub_add_cancel hpos).symm⟩
        rw [hk] at hn ⊢
        exact hn
      · intro y hy hyc
        rcases List.mem_cons.mp hy with rfl | hy
        · have hn := List.mem_of_getElem? hn
          exact Nat.le_of_lt (ha n hn)
        · exact hmax y hy hyc
    · have hnone : ∀ x ∈ rest, ¬ x ≤ c := fun x hx hxc => hmore ⟨x, hx, hxc⟩
      have hzero : rest.countP (· ≤ c) = 0 :=
        List.countP_eq_zero.mpr fun x hx => by simpa using hnone x hx
      refine ⟨a, by rw [hzero]; rfl, hac, ?_⟩
      intro y hy hyc
      rcases List.mem_cons.mp hy with rfl | hy
      · exact Nat.le_refl _
      · exact absurd hyc (hnone y hy)

theorem mem_cuts {sets : List CharSet} {c : Nat} : c ∈ cuts sets ↔
    (c = 0 ∨ c = endMark ∨ ∃ s ∈ sets, ∃ r ∈ s.ranges, c = r.lo ∨ c = r.hi + 1) ∧ c ≤ endMark := by
  simp [cuts, mem_ascending, List.mem_filter]

theorem pairwise_cuts (sets : List CharSet) : (cuts sets).Pairwise (· < ·) :=
  (pairwise_ascending _).filter _

/-- Between two cuts no set begins or ends. -/
theorem mem_iff_of_cut {sets : List CharSet} {start c : Nat} (hle : start ≤ c) (hc : c ≤ endMark)
    (hmax : ∀ x ∈ cuts sets, x ≤ c → x ≤ start) {s : CharSet} (hs : s ∈ sets) :
    start ∈ s ↔ c ∈ s := by
  rw [CharSet.mem_iff_exists, CharSet.mem_iff_exists]
  constructor
  · rintro ⟨r, hr, hlo, hhi⟩
    refine ⟨r, hr, by omega, ?_⟩
    by_contra hgt
    have hcut := hmax (r.hi + 1)
      (mem_cuts.mpr ⟨Or.inr (Or.inr ⟨s, hs, r, hr, Or.inr rfl⟩), by omega⟩)
    omega
  · rintro ⟨r, hr, hlo, hhi⟩
    refine ⟨r, hr, ?_, by omega⟩
    by_contra hlt
    have hcut := hmax r.lo (mem_cuts.mpr ⟨Or.inr (Or.inr ⟨s, hs, r, hr, Or.inl rfl⟩), by omega⟩)
    omega

/-- The end of the input is the last cut. -/
theorem cuts_eq (sets : List CharSet) :
    cuts sets = (cuts sets).filter (· < endMark) ++ [endMark] := by
  refine ascending_ext (pairwise_cuts sets) ?_ fun c => ?_
  · refine List.pairwise_append.mpr ⟨(pairwise_cuts sets).filter _, by simp, ?_⟩
    intro a ha b hb
    rw [List.mem_singleton.mp hb]
    simpa using (List.mem_filter.mp ha).2
  · rw [List.mem_append, List.mem_filter, List.mem_singleton, decide_eq_true_eq]
    constructor
    · intro h
      have hle := (mem_cuts.mp h).2
      rcases Nat.lt_or_ge c endMark with hlt | hge
      · exact Or.inl ⟨h, hlt⟩
      · exact Or.inr (Nat.le_antisymm hle hge)
    · rintro (h | rfl)
      · exact h.1
      · exact mem_cuts.mpr ⟨Or.inr (Or.inl rfl), Nat.le_refl _⟩

/-! ## 2. Halving -/

/-- In an ascending list the elements up to a bound come first. -/
theorem any_getElem?_iff_lt_countP {ns : List Nat} (h : ns.Pairwise (· < ·)) (c i : Nat) :
    ns[i]?.any (fun n => decide (n ≤ c)) = true ↔ i < ns.countP (· ≤ c) := by
  induction ns generalizing i with
  | nil => simp
  | cons a rest ih =>
    obtain ⟨ha, hrest⟩ := List.pairwise_cons.mp h
    by_cases hac : a ≤ c
    · rw [List.countP_cons_of_pos (by simpa using hac)]
      cases i with
      | zero => simpa using hac
      | succ i => simpa using ih hrest i
    · have hnone : rest.countP (· ≤ c) = 0 :=
        List.countP_eq_zero.mpr fun x hx => by have := ha x hx; simp; omega
      rw [List.countP_cons_of_neg (by simpa using hac), hnone]
      have hafter := ih hrest
      rw [hnone] at hafter
      cases i with
      | zero => simpa using hac
      | succ i => simpa using hafter i

/-- Halving counts the intervals that begin at a code point or before. -/
theorem intervalAt_eq {starts : List Nat} (h : starts.Pairwise (· < ·)) (c : Nat) :
    intervalAt starts c = starts.countP (· ≤ c) - 1 := by
  have hlength : starts.countP (· ≤ c) ≤ 0 + starts.length := by
    rw [Nat.zero_add]
    exact List.countP_le_length
  rw [intervalAt, partitionPoint_eq (any_getElem?_iff_lt_countP h c) (Nat.zero_le _) hlength]

/-- A cut begins the interval that it lies in. -/
theorem getElem?_intervalAt {starts : List Nat} (h : starts.Pairwise (· < ·)) {c : Nat}
    (hc : c ∈ starts) : starts[intervalAt starts c]? = some c := by
  obtain ⟨n, hn, hle, hmax⟩ := exists_last_le h hc (Nat.le_refl c)
  rw [intervalAt_eq h, hn, Nat.le_antisymm hle (hmax c hc (Nat.le_refl c))]

/-! ## 3. The intervals of a range -/

theorem mem_walkFrom {hi k n : Nat} {starts : List Nat} (h : starts.Pairwise (· < ·)) :
    n ∈ walkFrom hi k starts ↔ ∃ i c, n = k + i ∧ starts[i]? = some c ∧ c ≤ hi := by
  induction starts generalizing k with
  | nil => simp [walkFrom]
  | cons a rest ih =>
    obtain ⟨ha, hrest⟩ := List.pairwise_cons.mp h
    rw [walkFrom]
    split
    · rename_i hle
      rw [List.mem_cons, ih hrest]
      constructor
      · rintro (rfl | ⟨i, c, rfl, hi, hc⟩)
        · exact ⟨0, a, rfl, rfl, hle⟩
        · exact ⟨i + 1, c, by omega, hi, hc⟩
      · rintro ⟨i, c, rfl, hi, hc⟩
        cases i with
        | zero => exact .inl rfl
        | succ i => exact .inr ⟨i, c, by omega, hi, hc⟩
    · rename_i hgt
      -- the intervals after one that begins too late begin later still
      refine iff_of_false (List.not_mem_nil) ?_
      rintro ⟨i, c, -, hi, hc⟩
      cases i with
      | zero =>
        obtain rfl := Option.some.inj hi
        exact hgt hc
      | succ i =>
        have := ha c (List.mem_of_getElem? hi)
        omega

theorem nodup_walkFrom (hi k : Nat) (starts : List Nat) : (walkFrom hi k starts).Nodup := by
  have hle : ∀ (k : Nat) (starts : List Nat), ∀ n ∈ walkFrom hi k starts, k ≤ n := by
    intro k starts
    induction starts generalizing k with
    | nil => simp [walkFrom]
    | cons a rest ih =>
      intro n hn
      rw [walkFrom] at hn
      split at hn
      · rcases List.mem_cons.mp hn with rfl | hn
        · exact Nat.le_refl n
        · have := ih (k + 1) n hn
          omega
      · cases hn
  induction starts generalizing k with
  | nil => exact .nil
  | cons a rest ih =>
    rw [walkFrom]
    split
    · refine List.nodup_cons.mpr ⟨fun hmem => ?_, ih (k + 1)⟩
      have := hle (k + 1) rest k hmem
      omega
    · exact .nil

/-- Elements of an ascending list compare as their places do. -/
theorem le_iff_of_getElem? {ns : List Nat} (h : ns.Pairwise (· < ·)) {i j a b : Nat}
    (hi : ns[i]? = some a) (hj : ns[j]? = some b) : a ≤ b ↔ i ≤ j := by
  obtain ⟨hilt, rfl⟩ := List.getElem?_eq_some_iff.mp hi
  obtain ⟨hjlt, rfl⟩ := List.getElem?_eq_some_iff.mp hj
  have hpairs := List.pairwise_iff_getElem.mp h
  rcases Nat.lt_trichotomy i j with hlt | rfl | hgt
  · exact iff_of_true (hpairs i j hilt hjlt hlt).le hlt.le
  · simp
  · exact iff_of_false (Nat.not_le.mpr (hpairs j i hjlt hilt hgt)) (Nat.not_le.mpr hgt)

variable {sets : List CharSet} {s : CharSet} {r : CodeRange} {k : Nat}

/-- A range that begins at the end of the input or before goes along intervals from its first code
point on. -/
theorem walk_of_le {starts : List Nat} (h : r.lo ≤ endMark) : walk starts r =
    walkFrom r.hi (intervalAt starts r.lo) (starts.drop (intervalAt starts r.lo)) :=
  if_neg (Nat.not_lt.mpr h)

theorem nodup_walk (starts : List Nat) (r : CodeRange) : (walk starts r).Nodup := by
  rw [walk]
  split
  · exact .nil
  · exact nodup_walkFrom _ _ _

/-- **A range of a set goes along the intervals that begin in it.** -/
theorem mem_walk (hs : s ∈ sets) (hr : r ∈ s.ranges) :
    k ∈ walk (cuts sets) r ↔ ∃ c, (cuts sets)[k]? = some c ∧ r.lo ≤ c ∧ c ≤ r.hi := by
  have hsorted := pairwise_cuts sets
  rcases Nat.lt_or_ge endMark r.lo with hgt | hle
  · rw [walk, if_pos hgt]
    refine iff_of_false List.not_mem_nil ?_
    rintro ⟨c, hc, hlo, -⟩
    have := (mem_cuts.mp (List.mem_of_getElem? hc)).2
    omega
  · have hcut : r.lo ∈ cuts sets := mem_cuts.mpr ⟨.inr (.inr ⟨s, hs, r, hr, .inl rfl⟩), hle⟩
    have hfirst := getElem?_intervalAt hsorted hcut
    rw [walk_of_le hle, mem_walkFrom hsorted.drop]
    simp only [List.getElem?_drop]
    constructor
    · rintro ⟨i, c, rfl, hc, hhi⟩
      exact ⟨c, hc, (le_iff_of_getElem? hsorted hfirst hc).mpr (Nat.le_add_right _ i), hhi⟩
    · rintro ⟨c, hc, hlo, hhi⟩
      obtain ⟨i, rfl⟩ := Nat.exists_eq_add_of_le ((le_iff_of_getElem? hsorted hfirst hc).mp hlo)
      exact ⟨i, c, rfl, hc, hhi⟩

/-- A set goes along the intervals that begin in it. -/
theorem mem_walkSet (hs : s ∈ sets) :
    k ∈ walkSet (cuts sets) s ↔ ∃ c, (cuts sets)[k]? = some c ∧ c ∈ s := by
  simp only [walkSet, List.mem_flatMap, CharSet.mem_iff_exists]
  constructor
  · rintro ⟨r, hr, hk⟩
    obtain ⟨c, hc, hin⟩ := (mem_walk hs hr).mp hk
    exact ⟨c, hc, r, hr, hin⟩
  · rintro ⟨c, hc, r, hr, hin⟩
    exact ⟨r, hr, (mem_walk hs hr).mpr ⟨c, hc, hin⟩⟩

/-- No interval is met twice, since ranges of a set are apart. -/
theorem nodup_walkSet (hs : s ∈ sets) : (walkSet (cuts sets) s).Nodup := by
  refine List.nodup_flatMap.mpr ⟨fun r _ => nodup_walk _ r, ?_⟩
  refine s.apart.imp_of_mem fun {r r'} hr hr' hbefore k hk hk' => ?_
  obtain ⟨c, hc, -, hhi⟩ := (mem_walk hs hr).mp hk
  obtain ⟨c', hc', hlo, -⟩ := (mem_walk hs hr').mp hk'
  obtain rfl := Option.some.inj (hc.symm.trans hc')
  simp only [CodeRange.Before] at hbefore
  omega

/-! ## 4. The sets of an interval -/

/-- The numbers of the sets that a code point lies in, ascending. -/
def signature (sets : List CharSet) (c : Nat) : List Nat :=
  sets.zipIdx.filterMap fun (s, id) => if s.contains c then some id else none

/-- Code points have one signature if they lie in the same sets. -/
theorem signature_eq_iff {c c' : Nat} :
    signature sets c = signature sets c' ↔ ∀ s ∈ sets, (c ∈ s ↔ c' ∈ s) := by
  have hmem : ∀ {d id : Nat}, id ∈ signature sets d ↔ ∃ s, sets[id]? = some s ∧ d ∈ s := by
    intro d id
    rw [signature, List.mem_filterMap]
    constructor
    · rintro ⟨⟨s, n⟩, hs, hid⟩
      obtain ⟨hd, hid⟩ := Option.ite_none_right_eq_some.mp hid
      obtain rfl := Option.some.inj hid
      exact ⟨s, by simpa using List.mem_zipIdx_iff_getElem?.mp hs, hd⟩
    · rintro ⟨s, hs, hd⟩
      refine ⟨(s, id), List.mem_zipIdx_iff_getElem?.mpr hs, ?_⟩
      simp only [CharSet.mem_def.mp hd, if_true]
  constructor
  · intro h s hs
    obtain ⟨id, hid⟩ := List.mem_iff_getElem?.mp hs
    have hone : ∀ d, d ∈ s ↔ id ∈ signature sets d := by
      intro d
      rw [hmem]
      exact ⟨fun hd => ⟨s, hid, hd⟩, fun ⟨s', hs', hd⟩ =>
        Option.some.inj (hid.symm.trans hs') ▸ hd⟩
    rw [hone, hone, h]
  · intro h
    refine List.filterMap_congr fun ⟨s, id⟩ hs => ?_
    have hs' : s ∈ sets := List.mem_of_getElem? (List.mem_zipIdx_iff_getElem?.mp hs)
    simp only [Bool.eq_iff_iff.mpr (h s hs')]

/-- One set is noted once for each interval that it goes along. -/
theorem getElem?_foldl_note {ks : List Nat} (h : ks.Nodup) (id : Nat) (noted : Array (List Nat)) :
    (ks.foldl (fun noted k => noted.modify k (· ++ [id])) noted)[k]?
      = noted[k]?.map fun ids => if k ∈ ks then ids ++ [id] else ids := by
  induction ks generalizing noted with
  | nil => simp
  | cons k' ks ih =>
    obtain ⟨hnot, hks⟩ := List.nodup_cons.mp h
    rw [List.foldl_cons, ih hks, Array.getElem?_modify]
    by_cases hk : k' = k
    · subst hk
      cases noted[k']? <;> simp [hnot]
    · cases noted[k]? <;> simp [hk, Ne.symm hk]

theorem getElem?_foldl_noteAll {starts : List Nat} {numbered : List (CharSet × Nat)}
    (h : ∀ x ∈ numbered, (walkSet starts x.1).Nodup) (noted : Array (List Nat)) :
    (numbered.foldl (fun noted (s, id) =>
        (walkSet starts s).foldl (fun noted k => noted.modify k (· ++ [id])) noted) noted)[k]?
      = noted[k]?.map fun ids => ids ++ numbered.filterMap fun (s, id) =>
        if k ∈ walkSet starts s then some id else none := by
  induction numbered generalizing noted with
  | nil => simp
  | cons x numbered ih =>
    obtain ⟨hx, hrest⟩ := List.forall_mem_cons.mp h
    rw [List.foldl_cons, ih hrest, getElem?_foldl_note hx, Option.map_map]
    congr 1
    funext ids
    by_cases hk : k ∈ walkSet starts x.1 <;> simp [hk]

/-- **The sets noted for an interval are those that its first code point lies in.** -/
theorem signatures_eq (sets : List CharSet) :
    (signatures (cuts sets) sets).toList = (cuts sets).map (signature sets) := by
  have hmem : ∀ x ∈ sets.zipIdx, x.1 ∈ sets := fun x hx =>
    List.mem_of_getElem? (List.mem_zipIdx_iff_getElem?.mp hx)
  refine List.ext_getElem? fun k => ?_
  rw [Array.getElem?_toList, signatures,
    getElem?_foldl_noteAll (fun x hx => nodup_walkSet (hmem x hx)), Array.getElem?_replicate,
    List.getElem?_map]
  split
  · rename_i hk
    have hstart : (cuts sets)[k]? = some (cuts sets)[k] := List.getElem?_eq_getElem hk
    rw [hstart, Option.map_some, Option.map_some, List.nil_append, signature]
    refine congrArg some (List.filterMap_congr fun ⟨s, id⟩ hx => ?_)
    simp only [mem_walkSet (hmem _ hx), hstart, Option.some.injEq, exists_eq_left', CharSet.mem_def]
  · rename_i hk
    rw [List.getElem?_eq_none (Nat.not_lt.mp hk)]
    rfl

end GrammarTables.Lexical
