import GrammarTables.Proofs.CharSet.Algebra
import GrammarTables.Halving
/-
# Sets of code points in words of 32 bits

The operations on sets can be carried out on lists of pairs of words.  Ranges are sorted and joined
where they meet or touch, two lists are intersected by going along both of them, a complement goes
from gap to gap, and a member is found by halving.  No step leaves the words, since after the
greatest one comes that word itself.

The lists that terms make in this way are the ranges of the sets that they make
(`Term.words_exact`).  For each operation it is enough to know the members of its list, and that the
list ascends with gaps (`Words.Gapped.denotes`).  So both are a Boolean algebra with one form for
each set (`Term.eval_canonical`).
-/

namespace GrammarTables.CharSet

/-- Ranges of words, from the first component to the second. -/
abbrev Words := List (UInt32 × UInt32)

namespace Words

variable {ws vs ps : Words} {s t : CharSet} {c : Nat}

/-! ## 1. The set of a list -/

/-- A number lies in one of the ranges. -/
def Has (ws : Words) (c : Nat) : Prop := ∃ p ∈ ws, p.1.toNat ≤ c ∧ c ≤ p.2.toNat

/-- Ranges that are not empty, ascend and leave gaps. -/
structure Gapped (ws : Words) : Prop where
  le : ∀ p ∈ ws, p.1.toNat ≤ p.2.toNat
  apart : ws.Pairwise fun p q => p.2.toNat + 1 < q.1.toNat

/-- The ranges are those of a set. -/
def Denotes (ws : Words) (s : CharSet) : Prop :=
  ws.map (fun p => (p.1.toNat, p.2.toNat)) = s.ranges.map fun r => (r.lo, r.hi)

@[simp] theorem has_nil : ¬ Has [] c := by simp [Has]

@[simp] theorem has_cons {p : UInt32 × UInt32} :
    Has (p :: ws) c ↔ (p.1.toNat ≤ c ∧ c ≤ p.2.toNat) ∨ Has ws c := by
  simp [Has]

theorem has_append : Has (ws ++ vs) c ↔ Has ws c ∨ Has vs c := by
  simp [Has, or_and_right, exists_or]

theorem has_congr (h : ∀ p, p ∈ ws ↔ p ∈ vs) : Has ws c ↔ Has vs c := by
  simp [Has, h]

theorem gapped_cons {p : UInt32 × UInt32} : Gapped (p :: ws) ↔
    p.1.toNat ≤ p.2.toNat ∧ (∀ q ∈ ws, p.2.toNat + 1 < q.1.toNat) ∧ Gapped ws := by
  constructor
  · rintro ⟨hle, hapart⟩
    obtain ⟨hfirst, hrest⟩ := List.pairwise_cons.mp hapart
    exact ⟨hle p (by simp), hfirst, fun q hq => hle q (by simp [hq]), hrest⟩
  · rintro ⟨hle, hfirst, hrest⟩
    exact ⟨List.forall_mem_cons.mpr ⟨hle, hrest.le⟩, List.pairwise_cons.mpr ⟨hfirst, hrest.apart⟩⟩

theorem Denotes.has_iff (h : ws.Denotes s) : ws.Has c ↔ c ∈ s := by
  have hws : ws.Has c ↔ ∃ p ∈ ws.map fun p => (p.1.toNat, p.2.toNat), p.1 ≤ c ∧ c ≤ p.2 := by
    simp [Has]
  rw [hws, h, mem_iff_exists]
  simp

theorem Denotes.gapped (h : ws.Denotes s) : ws.Gapped := by
  constructor
  · have hle : ∀ p ∈ ws.map fun p => (p.1.toNat, p.2.toNat), p.1 ≤ p.2 := by
      rw [h, List.forall_mem_map]
      exact fun r _ => r.lo_le_hi
    exact List.forall_mem_map.mp hle
  · have hapart : (ws.map fun p => (p.1.toNat, p.2.toNat)).Pairwise fun p q => p.2 + 1 < q.1 := by
      rw [h, List.pairwise_map]
      exact s.apart
    simpa [List.pairwise_map] using hapart

/-- **A gapped list is known by its members.** -/
theorem Gapped.denotes (h : ws.Gapped) (hmem : ∀ c, ws.Has c ↔ c ∈ s) : ws.Denotes s := by
  have hranges : ws.pmap (fun p hp => CodeRange.mk p.1.toNat p.2.toNat hp) h.le = s.ranges := by
    refine ranges_ext ?_ s.apart fun c => ?_
    · rw [List.pairwise_pmap]
      exact h.apart.imp fun hlt _ _ => hlt
    · rw [← mem_iff_exists, ← hmem, Has]
      simp only [List.mem_pmap]
      constructor
      · rintro ⟨r, ⟨p, hp, rfl⟩, hc⟩
        exact ⟨p, hp, hc⟩
      · rintro ⟨p, hp, hc⟩
        exact ⟨_, ⟨p, hp, rfl⟩, hc⟩
  rw [Denotes, ← hranges, List.map_pmap]
  exact (List.pmap_eq_map h.le).symm

/-! ## 2. Sorting and joining -/

/-- The word after a word; after the greatest one, that word itself. -/
def after (c : UInt32) : UInt32 := if c = -1 then c else c + 1

theorem toNat_after (c : UInt32) : (after c).toNat = min (c.toNat + 1) (UInt32.size - 1) := by
  have hlt := c.toNat_lt_size
  unfold after
  split
  · rename_i h
    subst h
    rfl
  · rename_i h
    have hne : c.toNat ≠ UInt32.size - 1 := fun heq => h (UInt32.toNat_inj.mp heq)
    simp only [UInt32.size] at *
    rw [UInt32.toNat_add, UInt32.toNat_one]
    omega

/-- Whether a range begins before another, or with it and ends no later. -/
def sortsBefore (p q : UInt32 × UInt32) : Bool := p.1 < q.1 || (p.1 = q.1 && p.2 ≤ q.2)

/-- Adds a range after others, of which the last comes first; it is joined with that one if they
meet or touch. -/
def push : Words → UInt32 × UInt32 → Words
  | [], p => [p]
  | last :: rest, p =>
    if p.1 ≤ after last.2 then (last.1, max last.2 p.2) :: rest else p :: last :: rest

/-- The ranges of a list in any order, those that are empty left out. -/
def ofPairs (ps : Words) : Words :=
  (((ps.filter fun p => p.1 ≤ p.2).mergeSort sortsBefore).foldl push []).reverse

/-- What has been joined so far: gapped ranges, of which the last comes first and begins no later
than `next`. -/
structure Joined (next : Nat) (out : Words) : Prop where
  le : ∀ p ∈ out, p.1.toNat ≤ p.2.toNat
  apart : out.Pairwise fun p q => q.2.toNat + 1 < p.1.toNat
  first : ∀ last ∈ out.head?, last.1.toNat ≤ next

theorem Joined.mono {next next' : Nat} {out : Words} (h : Joined next out) (hle : next ≤ next') :
    Joined next' out :=
  ⟨h.le, h.apart, fun last hlast => Nat.le_trans (h.first last hlast) hle⟩

theorem Joined.push {out : Words} {p : UInt32 × UInt32} (h : Joined p.1.toNat out)
    (hp : p.1.toNat ≤ p.2.toNat) : Joined p.1.toNat (push out p) := by
  match out with
  | [] => exact ⟨by simpa [Words.push] using hp, by simp [Words.push], by simp [Words.push]⟩
  | last :: rest =>
    obtain ⟨hlast, hrest⟩ := List.forall_mem_cons.mp h.le
    obtain ⟨hbefore, hapart⟩ := List.pairwise_cons.mp h.apart
    have hfirst : last.1.toNat ≤ p.1.toNat := h.first last rfl
    have hword := p.1.toNat_lt_size
    rw [Words.push]
    split
    · refine ⟨List.forall_mem_cons.mpr ⟨?_, hrest⟩, List.pairwise_cons.mpr ⟨hbefore, hapart⟩, ?_⟩
      · change last.1.toNat ≤ (max last.2 p.2).toNat
        rw [UInt32.toNat_max]
        omega
      · simpa using hfirst
    · rename_i hgap
      rw [UInt32.le_iff_toNat_le, toNat_after] at hgap
      refine ⟨List.forall_mem_cons.mpr ⟨hp, h.le⟩,
        List.pairwise_cons.mpr ⟨List.forall_mem_cons.mpr ⟨by omega, fun q hq => ?_⟩, h.apart⟩, ?_⟩
      · have := hbefore q hq
        omega
      · simp

/-- Joining changes no members. -/
theorem has_push {out : Words} {p : UInt32 × UInt32} (h : Joined p.1.toNat out) :
    Has (push out p) c ↔ Has out c ∨ p.1.toNat ≤ c ∧ c ≤ p.2.toNat := by
  match out with
  | [] => simp [push]
  | last :: rest =>
    have hlast := h.le last (by simp)
    have hfirst : last.1.toNat ≤ p.1.toNat := h.first last rfl
    rw [push]
    split
    · rename_i hmeets
      rw [UInt32.le_iff_toNat_le, toNat_after] at hmeets
      have hjoin : last.1.toNat ≤ c ∧ c ≤ (max last.2 p.2).toNat ↔
          (last.1.toNat ≤ c ∧ c ≤ last.2.toNat) ∨ p.1.toNat ≤ c ∧ c ≤ p.2.toNat := by
        rw [UInt32.toNat_max]
        omega
      rw [has_cons, has_cons, hjoin, or_right_comm]
    · rw [has_cons, or_comm]

theorem foldl_push {next : Nat} {out : Words} (h : Joined next out)
    (hle : ∀ p ∈ ps, p.1.toNat ≤ p.2.toNat) (hnext : ∀ p ∈ ps, next ≤ p.1.toNat)
    (hsorted : ps.Pairwise fun p q => p.1.toNat ≤ q.1.toNat) :
    (∃ last, Joined last (ps.foldl push out)) ∧
      ∀ c, Has (ps.foldl push out) c ↔ Has out c ∨ Has ps c := by
  induction ps generalizing next out with
  | nil => exact ⟨⟨next, h⟩, fun c => by simp⟩
  | cons p rest ih =>
    obtain ⟨hp, hrest⟩ := List.forall_mem_cons.mp hle
    obtain ⟨hfirst, hsorted⟩ := List.pairwise_cons.mp hsorted
    have hjoined := h.mono (hnext p (by simp))
    obtain ⟨hlast, hmem⟩ := ih (hjoined.push hp) hrest hfirst hsorted
    exact ⟨hlast, fun c => by rw [List.foldl_cons, hmem, has_push hjoined, has_cons, or_assoc]⟩

theorem pairwise_mergeSort (ps : Words) :
    (ps.mergeSort sortsBefore).Pairwise fun p q => p.1.toNat ≤ q.1.toNat := by
  have htrans : ∀ p q r, sortsBefore p q = true → sortsBefore q r = true →
      sortsBefore p r = true := by
    simp only [sortsBefore, Bool.or_eq_true, Bool.and_eq_true, decide_eq_true_eq,
      UInt32.lt_iff_toNat_lt, UInt32.le_iff_toNat_le, ← UInt32.toNat_inj]
    omega
  have htotal : ∀ p q, (sortsBefore p q || sortsBefore q p) = true := by
    simp only [sortsBefore, Bool.or_eq_true, Bool.and_eq_true, decide_eq_true_eq,
      UInt32.lt_iff_toNat_lt, UInt32.le_iff_toNat_le, ← UInt32.toNat_inj]
    omega
  refine (List.pairwise_mergeSort htrans htotal ps).imp fun {p q} h => ?_
  simp only [sortsBefore, Bool.or_eq_true, Bool.and_eq_true, decide_eq_true_eq,
    UInt32.lt_iff_toNat_lt, UInt32.le_iff_toNat_le, ← UInt32.toNat_inj] at h
  omega

theorem gapped_ofPairs_and_has (ps : Words) :
    (ofPairs ps).Gapped ∧ ∀ c, (ofPairs ps).Has c ↔ ps.Has c := by
  set sorted := (ps.filter fun p => p.1 ≤ p.2).mergeSort sortsBefore with hsorted
  have hmem : ∀ p, p ∈ sorted ↔ p ∈ ps ∧ p.1.toNat ≤ p.2.toNat := by
    simp [hsorted, List.mem_mergeSort, UInt32.le_iff_toNat_le]
  have hnone : Joined 0 [] := ⟨by simp, .nil, by simp⟩
  obtain ⟨⟨last, hjoined⟩, hhas⟩ := foldl_push hnone (fun p hp => ((hmem p).mp hp).2)
    (fun p _ => Nat.zero_le _) (pairwise_mergeSort _)
  refine ⟨⟨fun p hp => hjoined.le p (List.mem_reverse.mp hp), ?_⟩, fun c => ?_⟩
  · exact List.pairwise_reverse.mpr hjoined.apart
  · have hrev : (ofPairs ps).Has c ↔ (sorted.foldl push []).Has c :=
      has_congr fun p => List.mem_reverse
    rw [hrev, hhas, Has, Has]
    constructor
    · rintro (h | ⟨p, hp, hc⟩)
      · exact absurd h has_nil
      · exact ⟨p, ((hmem p).mp hp).1, hc⟩
    · rintro ⟨p, hp, hc⟩
      exact Or.inr ⟨p, (hmem p).mpr ⟨hp, Nat.le_trans hc.1 hc.2⟩, hc⟩

/-! ## 3. Common parts -/

/-- The common part of two ranges, if they meet. -/
def common (p q : UInt32 × UInt32) : Words :=
  if max p.1 q.1 ≤ min p.2 q.2 then [(max p.1 q.1, min p.2 q.2)] else []

/-- The common parts of two lists: of the two first ranges the one that ends first is left behind,
the second one if they end together. -/
def inter : Words → Words → Words
  | p :: ps, q :: qs =>
    common p q ++ if p.2 < q.2 then inter ps (q :: qs) else inter (p :: ps) qs
  | _, _ => []
termination_by ps qs => ps.length + qs.length

section Inter

variable {p q r : UInt32 × UInt32}

theorem mem_common : r ∈ common p q ↔
    r = (max p.1 q.1, min p.2 q.2) ∧
      max p.1.toNat q.1.toNat ≤ min p.2.toNat q.2.toNat := by
  have hmeet : max p.1 q.1 ≤ min p.2 q.2 ↔
      max p.1.toNat q.1.toNat ≤ min p.2.toNat q.2.toNat := by
    rw [UInt32.le_iff_toNat_le, UInt32.toNat_max, UInt32.toNat_min]
  rw [common, ← hmeet]
  split
  · rename_i h
    simp only [List.mem_singleton, h, and_true]
  · rename_i h
    simp only [List.not_mem_nil, h, and_false]

theorem has_common : Has (common p q) c ↔
    (p.1.toNat ≤ c ∧ c ≤ p.2.toNat) ∧ q.1.toNat ≤ c ∧ c ≤ q.2.toNat := by
  simp only [Has, mem_common]
  constructor
  · rintro ⟨r, ⟨rfl, -⟩, hc⟩
    simp only [UInt32.toNat_max, UInt32.toNat_min] at hc
    omega
  · intro hc
    refine ⟨_, ⟨rfl, by omega⟩, ?_⟩
    simp only [UInt32.toNat_max, UInt32.toNat_min]
    omega

theorem gapped_common_append (h : Gapped ws)
    (hafter : ∀ r ∈ ws, min p.2.toNat q.2.toNat + 1 < r.1.toNat) : Gapped (common p q ++ ws) := by
  unfold common
  split
  · rename_i hmeet
    rw [UInt32.le_iff_toNat_le] at hmeet
    refine gapped_cons.mpr ⟨hmeet, fun r hr => ?_, h⟩
    simpa only [UInt32.toNat_min] using hafter r hr
  · exact h

/-- A common part begins no earlier than a range from each list. -/
theorem exists_le_of_mem_inter (h : r ∈ inter ws vs) :
    (∃ p ∈ ws, p.1.toNat ≤ r.1.toNat) ∧ ∃ q ∈ vs, q.1.toNat ≤ r.1.toNat := by
  fun_induction inter ws vs with
  | case1 p ps q qs ih₁ ih₂ =>
    rcases List.mem_append.mp h with h | h
    · obtain ⟨rfl, -⟩ := mem_common.mp h
      exact ⟨⟨p, by simp, by simp [UInt32.toNat_max]⟩, q, by simp, by simp [UInt32.toNat_max]⟩
    · split at h
      · obtain ⟨⟨p', hp', hle⟩, hq⟩ := ih₁ h
        exact ⟨⟨p', List.mem_cons_of_mem p hp', hle⟩, hq⟩
      · obtain ⟨hp, q', hq', hle⟩ := ih₂ h
        exact ⟨hp, q', List.mem_cons_of_mem q hq', hle⟩
  | case2 => cases h

theorem gapped_inter (hws : Gapped ws) (hvs : Gapped vs) : Gapped (inter ws vs) := by
  fun_induction inter ws vs with
  | case1 p ps q qs ih₁ ih₂ =>
    obtain ⟨-, hpafter, hps⟩ := gapped_cons.mp hws
    obtain ⟨-, hqafter, hqs⟩ := gapped_cons.mp hvs
    split
    · refine gapped_common_append (ih₁ hps hvs) fun r hr => ?_
      obtain ⟨⟨p', hp', hle⟩, -⟩ := exists_le_of_mem_inter hr
      have := hpafter p' hp'
      omega
    · refine gapped_common_append (ih₂ hws hqs) fun r hr => ?_
      obtain ⟨-, q', hq', hle⟩ := exists_le_of_mem_inter hr
      have := hqafter q' hq'
      omega
  | case2 => exact ⟨by simp, .nil⟩

/-- A later range of gapped ones holds nothing up to the end of the first one. -/
theorem Gapped.not_has (h : Gapped (p :: ws)) (hc : c ≤ p.2.toNat) : ¬ Has ws c := by
  rintro ⟨q, hq, hlo, -⟩
  have := (gapped_cons.mp h).2.1 q hq
  omega

theorem has_inter (hws : Gapped ws) (hvs : Gapped vs) :
    Has (inter ws vs) c ↔ Has ws c ∧ Has vs c := by
  fun_induction inter ws vs with
  | case1 p ps q qs ih₁ ih₂ =>
    have hps := (gapped_cons.mp hws).2.2
    have hqs := (gapped_cons.mp hvs).2.2
    have hpast := hws.not_has (c := c)
    have hqast := hvs.not_has (c := c)
    simp only [has_append, has_common]
    split
    · rename_i hlt
      rw [UInt32.lt_iff_toNat_lt] at hlt
      rw [ih₁ hps hvs, has_cons, has_cons]
      grind
    · rename_i hge
      rw [UInt32.lt_iff_toNat_lt] at hge
      rw [ih₂ hws hqs, has_cons, has_cons]
      grind
  | case2 ws vs hnone =>
    match ws, vs with
    | [], _ => simp
    | _ :: _, [] => simp
    | p :: ps, q :: qs => exact absurd rfl (hnone p ps q qs rfl)

end Inter

/-! ## 4. Gaps -/

/-- The greatest code point of Unicode. -/
def lastWord : UInt32 := 0x10FFFF

/-- The mark for the end of the input. -/
def endWord : UInt32 := 0x110000

theorem toNat_lastWord : lastWord.toNat = maxCodePoint := rfl

theorem toNat_endWord : endWord.toNat = endMark := rfl

/-- The gap from a word to the end of Unicode. -/
def lastGap (next : UInt32) : Words := if next ≤ lastWord then [(next, lastWord)] else []

/-- The gaps of gapped ranges from `next` on, within Unicode. -/
def gapsFrom (next : UInt32) : Words → Words
  | [] => lastGap next
  | p :: ps =>
    if lastWord < p.1 then lastGap next
    else if next < p.1 then (next, p.1 - 1) :: gapsFrom (after p.2) ps
    else gapsFrom (after p.2) ps

/-- What is not in gapped ranges. -/
def compl (ws : Words) : Words := gapsFrom 0 ws

/-- A word stands for a number, where the greatest word stands for all greater numbers. -/
def StandsFor (next : UInt32) (n : Nat) : Prop := next.toNat = min n (UInt32.size - 1)

theorem standsFor_after (c : UInt32) : StandsFor (after c) (c.toNat + 1) := toNat_after c

theorem map_lastGap {next : UInt32} {n : Nat} (h : StandsFor next n) :
    (lastGap next).map (fun p => (p.1.toNat, p.2.toNat)) =
      (CodeRange.of? n maxCodePoint).toList.map fun r => (r.lo, r.hi) := by
  have hle : next ≤ lastWord ↔ n ≤ maxCodePoint := by
    rw [UInt32.le_iff_toNat_le, h, toNat_lastWord]
    simp only [UInt32.size, maxCodePoint]
    omega
  unfold lastGap CodeRange.of?
  by_cases hn : n ≤ maxCodePoint
  · have hword : next.toNat = n := by
      rw [h]
      simp only [UInt32.size, maxCodePoint] at *
      omega
    simp [if_pos (hle.mpr hn), dif_pos hn, hword, toNat_lastWord]
  · simp [if_neg (mt hle.mp hn), dif_neg hn]

/-- The gaps of words are the gaps of the numbers that they stand for. -/
theorem map_gapsFrom : ∀ {ws : Words} {rs : List CodeRange} {next : UInt32} {n : Nat},
    ws.map (fun p => (p.1.toNat, p.2.toNat)) = rs.map (fun r => (r.lo, r.hi)) →
    StandsFor next n → (gapsFrom next ws).map (fun p => (p.1.toNat, p.2.toNat)) =
      (CharSet.gapsFrom n rs).map fun r => (r.lo, r.hi)
  | [], [], next, n, _, hnext => map_lastGap hnext
  | [], _ :: _, _, _, h, _ => by simp at h
  | _ :: _, [], _, _, h, _ => by simp at h
  | p :: ps, r :: rs, next, n, h, hnext => by
    obtain ⟨hfirst, hrest⟩ := List.cons.inj h
    obtain ⟨hlo, hhi⟩ := Prod.mk.inj hfirst
    have hword := p.1.toNat_lt_size
    have hafter : StandsFor (after p.2) (r.hi + 1) := hhi ▸ standsFor_after p.2
    have hlast : lastWord < p.1 ↔ maxCodePoint < r.lo := by
      rw [UInt32.lt_iff_toNat_lt, toNat_lastWord, hlo]
    have hgap : next < p.1 ↔ n < r.lo := by
      rw [UInt32.lt_iff_toNat_lt, hnext, hlo]
      omega
    rw [gapsFrom, CharSet.gapsFrom]
    by_cases hbeyond : maxCodePoint < r.lo
    · rw [if_pos (hlast.mpr hbeyond), if_pos hbeyond, map_lastGap hnext]
    by_cases hlt : n < r.lo
    · have hn : next.toNat = n := by
        rw [hnext]
        omega
      have hone : (p.1 - 1).toNat = r.lo - 1 := by
        rw [UInt32.toNat_sub_of_le, hlo, UInt32.toNat_one]
        rw [UInt32.le_iff_toNat_le, UInt32.toNat_one]
        omega
      rw [if_neg (mt hlast.mp hbeyond), if_neg hbeyond, if_pos (hgap.mpr hlt), dif_pos hlt,
        List.map_cons, List.map_cons, map_gapsFrom hrest hafter, hn, hone]
    · rw [if_neg (mt hlast.mp hbeyond), if_neg hbeyond, if_neg (mt hgap.mp hlt), dif_neg hlt,
        map_gapsFrom hrest hafter]

/-! ## 5. Members and sizes -/

/-- On which side of a word a range lies. -/
def sideOf (c : UInt32) (p : UInt32 × UInt32) : Ordering :=
  if p.2 < c then .lt else if c < p.1 then .gt else .eq

/-- Whether a word lies in one of the ranges, found by halving. -/
def contains (ws : Words) (c : UInt32) : Bool := (bisectBy (sideOf c) ws 0 ws.length).isSome

theorem sideOf_eq_eq {c : UInt32} {p : UInt32 × UInt32} :
    sideOf c p = .eq ↔ p.1.toNat ≤ c.toNat ∧ c.toNat ≤ p.2.toNat := by
  unfold sideOf
  simp only [UInt32.lt_iff_toNat_lt]
  grind

theorem Gapped.sidesOf (h : ws.Gapped) (c : UInt32) : SidesOf (sideOf c) ws := by
  refine h.apart.imp_of_mem fun {p q} hp hq hlt => ?_
  have hple := h.le p hp
  have hqle := h.le q hq
  unfold sideOf
  simp only [UInt32.lt_iff_toNat_lt]
  grind

theorem contains_iff {c : UInt32} (h : ws.Gapped) : ws.contains c = true ↔ ws.Has c.toNat := by
  rw [contains, Option.isSome_iff_exists]
  constructor
  · rintro ⟨p, hp⟩
    obtain ⟨hmem, hside⟩ := mem_of_bisectBy hp
    exact ⟨p, hmem, sideOf_eq_eq.mp hside⟩
  · rintro ⟨p, hp, hc⟩
    exact ⟨p, bisectBy_of_mem (h.sidesOf c) hp (sideOf_eq_eq.mpr hc)⟩

/-- The number of words in the ranges, counted in words of 64 bits. -/
def size (ws : Words) : UInt64 := ws.foldl (fun n p => n + ((p.2 - p.1).toUInt64 + 1)) 0

/-- The count of gapped ranges does not leave the words of 64 bits. -/
theorem toNat_foldl_size (h : ws.Gapped) {n : UInt64} (hn : ∀ p ∈ ws, n.toNat ≤ p.1.toNat) :
    (ws.foldl (fun n p => n + ((p.2 - p.1).toUInt64 + 1)) n).toNat
      = n.toNat + (ws.map fun p => p.2.toNat - p.1.toNat + 1).sum := by
  induction ws generalizing n with
  | nil => rfl
  | cons p rest ih =>
    obtain ⟨hle, hafter, hrest⟩ := gapped_cons.mp h
    have hp := hn p (by simp)
    have hword := p.2.toNat_lt_size
    have hsize : (n + ((p.2 - p.1).toUInt64 + 1)).toNat
        = n.toNat + (p.2.toNat - p.1.toNat + 1) := by
      simp only [UInt32.size] at hword
      rw [UInt64.toNat_add, UInt64.toNat_add, UInt32.toNat_toUInt64,
        UInt32.toNat_sub_of_le _ _ (UInt32.le_iff_toNat_le.mpr hle), UInt64.toNat_one]
      omega
    rw [List.foldl_cons, ih hrest fun q hq => ?_, hsize, List.map_cons, List.sum_cons,
      Nat.add_assoc]
    have := hafter q hq
    omega

theorem Denotes.toNat_size (h : ws.Denotes s) : ws.size.toNat = s.size := by
  have hsizes : (ws.map fun p => p.2.toNat - p.1.toNat + 1) = s.ranges.map CodeRange.size := by
    have := congrArg (List.map fun p : Nat × Nat => p.2 - p.1 + 1) h
    rwa [List.map_map, List.map_map] at this
  rw [size, toNat_foldl_size h.gapped fun p _ => Nat.zero_le _, hsizes, size_eq_sum]
  exact Nat.zero_add _

theorem Denotes.contains_eq (h : ws.Denotes s) (c : UInt32) :
    ws.contains c = s.contains c.toNat := by
  rw [Bool.eq_iff_iff, contains_iff h.gapped, h.has_iff, mem_def]

/-! ## 6. The operations -/

/-- What is in one of two lists. -/
def union (ws vs : Words) : Words := ofPairs (ws ++ vs)

/-- What is in the first list and not in the second one.  The mark for the end of the input, which
no complement has, is looked up by itself. -/
def diff (ws vs : Words) : Words :=
  inter ws (if ws.contains endWord && !vs.contains endWord then vs.compl.union [(endWord, endWord)]
    else vs.compl)

/-- The case variants of the code points of Unicode in the ranges. -/
def caseImages (ws : Words) : Words :=
  ws.flatMap fun p =>
    (List.range' p.1.toNat (min p.2.toNat maxCodePoint + 1 - p.1.toNat)).flatMap fun c =>
      (caseVariants c).map fun v => (UInt32.ofNat v, UInt32.ofNat v)

/-- The ranges with the case variants of what is in them, if there is any. -/
def caseFold (ws : Words) : Words :=
  if ws.caseImages.isEmpty then ws else ofPairs (ws ++ ws.caseImages)

theorem denotes_ofPairs (h : ∀ c, ps.Has c ↔ c ∈ s) : (ofPairs ps).Denotes s := by
  obtain ⟨hgapped, hhas⟩ := gapped_ofPairs_and_has ps
  exact hgapped.denotes fun c => (hhas c).trans (h c)

theorem denotes_single (c : UInt32) : Denotes [(c, c)] (.single c.toNat) := rfl

theorem Denotes.union (hs : ws.Denotes s) (ht : vs.Denotes t) :
    (ws.union vs).Denotes (s.union t) :=
  denotes_ofPairs fun c => by rw [has_append, hs.has_iff, ht.has_iff, mem_union]

theorem Denotes.inter (hs : ws.Denotes s) (ht : vs.Denotes t) :
    (ws.inter vs).Denotes (s.inter t) :=
  (gapped_inter hs.gapped ht.gapped).denotes fun c => by
    rw [has_inter hs.gapped ht.gapped, hs.has_iff, ht.has_iff, mem_inter]

theorem Denotes.compl (hs : ws.Denotes s) : ws.compl.Denotes s.compl :=
  map_gapsFrom hs (n := 0) rfl

theorem Denotes.diff (hs : ws.Denotes s) (ht : vs.Denotes t) : (ws.diff vs).Denotes (s.diff t) := by
  rw [Words.diff, CharSet.diff, hs.contains_eq, ht.contains_eq, toNat_endWord]
  split
  · exact hs.inter (ht.compl.union (denotes_single endWord))
  · exact hs.inter ht.compl

theorem toNat_of_mem_caseVariants {d v : Nat} (h : v ∈ caseVariants d) :
    (UInt32.ofNat v).toNat = v := by
  refine UInt32.toNat_ofNat_of_lt' (Nat.lt_of_le_of_lt (le_of_mem_caseVariants h).1 ?_)
  simp only [maxCodePoint, UInt32.size]
  omega

theorem has_caseImages : ws.caseImages.Has c ↔ ∃ d, ws.Has d ∧ c ∈ caseVariants d := by
  simp only [Has, caseImages, List.mem_flatMap, List.mem_map, List.mem_range'_1]
  constructor
  · rintro ⟨q, ⟨p, hp, d, hd, v, hv, rfl⟩, hc⟩
    rw [toNat_of_mem_caseVariants hv] at hc
    obtain rfl := Nat.le_antisymm hc.1 hc.2
    exact ⟨d, ⟨p, hp, by omega⟩, hv⟩
  · rintro ⟨d, ⟨p, hp, hd⟩, hc⟩
    have hunicode := (le_of_mem_caseVariants hc).2
    refine ⟨_, ⟨p, hp, d, by omega, c, hc, rfl⟩, ?_⟩
    rw [toNat_of_mem_caseVariants hc]
    exact ⟨Nat.le_refl c, Nat.le_refl c⟩

theorem Denotes.caseFold (hs : ws.Denotes s) : ws.caseFold.Denotes s.caseFold := by
  have hmem : ∀ c, Has (ws ++ ws.caseImages) c ↔ c ∈ s.caseFold := fun c => by
    simp only [has_append, has_caseImages, hs.has_iff, mem_caseFold]
  unfold Words.caseFold
  split
  · rename_i hnone
    refine hs.gapped.denotes fun c => ?_
    rw [← hmem, has_append, List.isEmpty_iff.mp hnone]
    simp
  · exact denotes_ofPairs hmem

end Words

/-! ## 7. Terms -/

namespace Term

/-- The list that a term makes. -/
def words : Term → Words
  | empty => []
  | single c => [(c, c)]
  | range lo hi => if hi < lo then [] else [(lo, hi)]
  | ofPairs ps => .ofPairs ps
  | union s t => s.words.union t.words
  | inter s t => s.words.inter t.words
  | compl s => s.words.compl
  | diff s t => s.words.diff t.words
  | caseFold s => s.words.caseFold

theorem denotes_range (lo hi : UInt32) :
    Words.Denotes (if hi < lo then [] else [(lo, hi)]) (.range lo.toNat hi.toNat) := by
  unfold CharSet.range CodeRange.of?
  by_cases hlt : hi < lo
  · rw [if_pos hlt, dif_neg (Nat.not_le.mpr (UInt32.lt_iff_toNat_lt.mp hlt))]
    rfl
  · rw [if_neg hlt, dif_pos (Nat.not_lt.mp (mt UInt32.lt_iff_toNat_lt.mpr hlt))]
    rfl

theorem denotes_words (e : Term) : e.words.Denotes e.eval := by
  induction e with
  | empty => rfl
  | single c => exact Words.denotes_single c
  | range lo hi => exact denotes_range lo hi
  | ofPairs ps => exact Words.denotes_ofPairs fun c => ((ofPairs ps).mem_eval).symm
  | union s t ihs iht => exact ihs.union iht
  | inter s t ihs iht => exact ihs.inter iht
  | compl s ih => exact ih.compl
  | diff s t ihs iht => exact ihs.diff iht
  | caseFold s ih => exact ih.caseFold

/-- The lists that terms make in words are the sets that they make: the ranges are those of the
set, halving finds its members, and the count is their number.  Equal lists are equal sets. -/
theorem words_exact (e f : Term) :
    e.words.Denotes e.eval ∧ (∀ c, e.words.contains c = e.eval.contains c.toNat) ∧
    e.words.size.toNat = e.eval.size ∧ (e.words = f.words ↔ e.eval = f.eval) := by
  refine ⟨e.denotes_words, e.denotes_words.contains_eq, e.denotes_words.toNat_size, fun h => ?_,
    fun h => ?_⟩
  · refine CharSet.ext fun c => ?_
    rw [← e.denotes_words.has_iff, h, f.denotes_words.has_iff]
  · have hinj : Function.Injective fun p : UInt32 × UInt32 => (p.1.toNat, p.2.toNat) :=
      fun p q heq => Prod.ext (UInt32.toNat_inj.mp (congrArg Prod.fst heq))
        (UInt32.toNat_inj.mp (congrArg Prod.snd heq))
    exact hinj.list_map (e.denotes_words.trans (h ▸ f.denotes_words.symm))

/-- No gap comes after the greatest word. -/
example : (Term.compl (.range 5 (-1))).words = [(0, 4)] := by
  decide

/-- **The sets that terms make are a Boolean algebra with one form for each set**: ranges ascend
with gaps between them, membership is membership in a range and follows the operations point by
point, equality is equality of members, and the size counts the members.  The lists that the same
terms make in words, by sorting, joining and halving, are these sets. -/
theorem eval_canonical (e f : Term) :
    (∀ r ∈ e.eval.ranges, r.lo ≤ r.hi ∧ r.hi < UInt32.size) ∧
    e.eval.ranges.Pairwise (fun r s => r.hi + 1 < s.lo) ∧
    (∀ c : UInt32, e.eval.contains c.toNat = true ↔
      ∃ r ∈ e.eval.ranges, r.lo ≤ c.toNat ∧ c.toNat ≤ r.hi) ∧
    (∀ c : UInt32, e.eval.contains c.toNat = true ↔ e.Has c.toNat) ∧
    (e.eval = f.eval ↔ ∀ c : UInt32, e.eval.contains c.toNat = f.eval.contains c.toNat) ∧
    e.eval.size = {c : UInt32 | e.eval.contains c.toNat = true}.ncard ∧
    e.words.Denotes e.eval ∧ (∀ c, e.words.contains c = e.eval.contains c.toNat) ∧
    e.words.size.toNat = e.eval.size ∧ (e.words = f.words ↔ e.eval = f.eval) := by
  refine ⟨fun r hr => ⟨r.lo_le_hi, ?_⟩, e.eval.apart, fun c => mem_iff_exists, fun c => e.mem_eval,
    eval_eq_iff, e.size_eval, words_exact e f⟩
  exact lt_size_of_mem (e := e) (mem_iff_exists.mpr ⟨r, hr, r.lo_le_hi, Nat.le_refl _⟩)

/-- The largest number is a member, beyond what a complement has. -/
example : (Term.diff (.range 0 (-1)) (.compl (.single 0x61))).eval.ranges.map
    (fun r => (r.lo, r.hi)) = [(0x61, 0x61), (endMark, endMark)] := by
  decide

end Term

end GrammarTables.CharSet
