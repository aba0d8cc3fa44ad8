/-
# Sets of code points

A `CharSet` is a list of inclusive ranges, ascending, with at least one missing code point
between neighbours.  The gap is part of the type, so a set has one representation only and
equality of sets is equality of lists.

Code points are plain numbers.  Besides the Unicode range `0 .. maxCodePoint` there is one
pseudo code point, `endMark`, that stands for the end of the input; it may be a member of a
set but no complement ever contains it.

The functions are `single`, `range`, `from_ranges`, `contains`, `len`, `union`, `intersect`,
`complement` and `subtract` of a set.
-/

namespace GrammarTables

/-- The largest Unicode code point. -/
def maxCodePoint : Nat := 0x10FFFF

/-- The pseudo code point that stands for the end of the input. -/
def endMark : Nat := 0x110000

/-- Whether a code point is a Unicode scalar value: in range and not a surrogate. -/
def isScalar (c : Nat) : Bool := c < 0xD800 || (0xDFFF < c && c ≤ maxCodePoint)

/-! ## 1. Ranges -/

/-- A non-empty inclusive range of code points. -/
structure CodeRange where
  lo : Nat
  hi : Nat
  lo_le_hi : lo ≤ hi
deriving DecidableEq

namespace CodeRange

/-- The range `lo .. hi`, if there is one. -/
def of? (lo hi : Nat) : Option CodeRange :=
  if h : lo ≤ hi then some ⟨lo, hi, h⟩ else none

/-- The range that holds `c` alone. -/
def single (c : Nat) : CodeRange := ⟨c, c, Nat.le_refl c⟩

/-- Whether `c` lies in the range. -/
def contains (r : CodeRange) (c : Nat) : Bool := r.lo ≤ c && c ≤ r.hi

/-- The smallest range that covers both. -/
def hull (r s : CodeRange) : CodeRange :=
  ⟨min r.lo s.lo, max r.hi s.hi, by have := r.lo_le_hi; omega⟩

/-- `r` ends and `s` begins with at least one code point between them. -/
def Before (r s : CodeRange) : Prop := r.hi + 1 < s.lo

instance (r s : CodeRange) : Decidable (r.Before s) := inferInstanceAs (Decidable (_ < _))

/-- The common part of two ranges, if they meet. -/
def overlap? (r s : CodeRange) : Option CodeRange := of? (max r.lo s.lo) (min r.hi s.hi)

/-- The number of code points in the range. -/
def size (r : CodeRange) : Nat := r.hi - r.lo + 1

theorem contains_iff {r : CodeRange} {c : Nat} : r.contains c = true ↔ r.lo ≤ c ∧ c ≤ r.hi := by
  simp [contains]

theorem eq_of_of? {lo hi : Nat} {r : CodeRange} (h : of? lo hi = some r) :
    r.lo = lo ∧ r.hi = hi := by
  unfold of? at h
  split at h
  · cases h; exact ⟨rfl, rfl⟩
  · cases h

end CodeRange

/-! ## 2. Inserting a range into an ordered list -/

/-- Adds a range to an ordered list, merging it with every range it meets or touches. -/
def insertRange (r : CodeRange) : List CodeRange → List CodeRange
  | [] => [r]
  | s :: rest =>
    if r.hi + 1 < s.lo then r :: s :: rest
    else if s.hi + 1 < r.lo then s :: insertRange r rest
    else insertRange (r.hull s) rest

/-- Whatever lies before the new range and before the whole list lies before the result. -/
theorem before_insertRange {q r : CodeRange} {rs : List CodeRange} (hr : q.Before r)
    (hrs : ∀ s ∈ rs, q.Before s) : ∀ s ∈ insertRange r rs, q.Before s := by
  induction rs generalizing r with
  | nil => simpa [insertRange] using hr
  | cons t rest ih =>
    have ht : q.Before t := hrs t (by simp)
    have hrest : ∀ s ∈ rest, q.Before s := fun s hs => hrs s (by simp [hs])
    unfold insertRange
    split
    · intro s hs
      rcases List.mem_cons.1 hs with rfl | hs
      · exact hr
      · exact hrs s hs
    · split
      · intro s hs
        rcases List.mem_cons.1 hs with rfl | hs
        · exact ht
        · exact ih hr hrest s hs
      · refine ih ?_ hrest
        simp only [CodeRange.Before, CodeRange.hull] at *
        omega

theorem pairwise_insertRange (r : CodeRange) {rs : List CodeRange}
    (h : rs.Pairwise CodeRange.Before) : (insertRange r rs).Pairwise CodeRange.Before := by
  induction rs generalizing r with
  | nil => simp [insertRange]
  | cons s rest ih =>
    have hs := (List.pairwise_cons.1 h).1
    have hrest := (List.pairwise_cons.1 h).2
    unfold insertRange
    split
    · rename_i hlt
      refine List.pairwise_cons.2 ⟨fun t ht => ?_, h⟩
      rcases List.mem_cons.1 ht with rfl | ht
      · exact hlt
      · have := hs t ht
        have := s.lo_le_hi
        simp only [CodeRange.Before] at *
        omega
    · split
      · rename_i hlt
        exact List.pairwise_cons.2 ⟨before_insertRange hlt hs, ih r hrest⟩
      · exact ih _ hrest

/-- A code point is in the result exactly if it is in the new range or was in the list. -/
theorem any_insertRange (r : CodeRange) (rs : List CodeRange) (c : Nat) :
    (insertRange r rs).any (·.contains c) = (r.contains c || rs.any (·.contains c)) := by
  induction rs generalizing r with
  | nil => simp [insertRange]
  | cons s rest ih =>
    unfold insertRange
    split
    · simp
    · split
      · simp only [List.any_cons, ih]
        cases r.contains c <;> cases s.contains c <;> rfl
      · rename_i h₁ h₂
        have hull : (r.hull s).contains c = (r.contains c || s.contains c) := by
          rw [Bool.eq_iff_iff]
          have := r.lo_le_hi
          have := s.lo_le_hi
          simp only [Bool.or_eq_true, CodeRange.contains_iff, CodeRange.hull]
          grind
        rw [ih, hull, List.any_cons, Bool.or_assoc]

/-! ## 3. The type -/

/-- A set of code points as ascending ranges that neither meet nor touch. -/
structure CharSet where
  ranges : List CodeRange
  apart : ranges.Pairwise CodeRange.Before
deriving DecidableEq

namespace CharSet

/-- The set without members. -/
def empty : CharSet := ⟨[], .nil⟩

instance : Inhabited CharSet := ⟨empty⟩

/-- The set `{c}`. -/
def single (c : Nat) : CharSet := ⟨[.single c], by simp⟩

/-- The code points `lo .. hi`; no code points at all if `hi < lo`. -/
def range (lo hi : Nat) : CharSet :=
  match CodeRange.of? lo hi with
  | some r => ⟨[r], by simp⟩
  | none => empty

/-- Adds all code points of a range. -/
def insert (s : CharSet) (r : CodeRange) : CharSet :=
  ⟨insertRange r s.ranges, pairwise_insertRange r s.apart⟩

/-- The union of ranges given in any order, overlapping or not. -/
def ofRanges (rs : List CodeRange) : CharSet := rs.foldr (fun r s => s.insert r) empty

/-- The union of the ranges `lo .. hi` of a list of pairs; a pair with `hi < lo` adds nothing. -/
def ofPairs (ps : List (Nat × Nat)) : CharSet :=
  ofRanges (ps.filterMap fun p => CodeRange.of? p.1 p.2)

/-- Whether `c` is a member. -/
def contains (s : CharSet) (c : Nat) : Bool := s.ranges.any (·.contains c)

instance : Membership Nat CharSet := ⟨fun s c => s.contains c = true⟩

instance (c : Nat) (s : CharSet) : Decidable (c ∈ s) :=
  inferInstanceAs (Decidable (s.contains c = true))

/-- Whether the set has no members. -/
def isEmpty (s : CharSet) : Bool := s.ranges.isEmpty

/-- The number of members. -/
def size (s : CharSet) : Nat := s.ranges.foldl (fun n r => n + r.size) 0

/-- The only member of a set that has exactly one. -/
def theOnly? (s : CharSet) : Option Nat :=
  match s.ranges with
  | [r] => if r.lo = r.hi then some r.lo else none
  | _ => none

/-! ## 4. Algebra -/

/-- All members of either set. -/
def union (s t : CharSet) : CharSet := s.ranges.foldr (fun r u => u.insert r) t

/-- The common parts of each range of one list with each range of the other, in order. -/
def overlaps (rs ss : List CodeRange) : List CodeRange :=
  rs.flatMap fun r => ss.filterMap r.overlap?

theorem pairwise_overlaps {rs ss : List CodeRange} (hr : rs.Pairwise CodeRange.Before)
    (hs : ss.Pairwise CodeRange.Before) : (overlaps rs ss).Pairwise CodeRange.Before := by
  refine List.pairwise_flatMap.2 ⟨fun r _ => ?_, hr.imp fun {a b} hab x hx y hy => ?_⟩
  · refine List.pairwise_filterMap.2 (hs.imp fun {a b} hab x hx y hy => ?_)
    have hx := CodeRange.eq_of_of? hx
    have hy := CodeRange.eq_of_of? hy
    simp only [CodeRange.Before] at *
    omega
  · obtain ⟨s, _, hx⟩ := List.mem_filterMap.1 hx
    obtain ⟨t, _, hy⟩ := List.mem_filterMap.1 hy
    have hx := CodeRange.eq_of_of? hx
    have hy := CodeRange.eq_of_of? hy
    simp only [CodeRange.Before] at *
    omega

/-- The members of both sets. -/
def inter (s t : CharSet) : CharSet :=
  ⟨overlaps s.ranges t.ranges, pairwise_overlaps s.apart t.apart⟩

/-- The gaps of an ordered list of ranges from `next` up to `maxCodePoint`. -/
def gapsFrom (next : Nat) : List CodeRange → List CodeRange
  | [] => (CodeRange.of? next maxCodePoint).toList
  | r :: rest =>
    if maxCodePoint < r.lo then (CodeRange.of? next maxCodePoint).toList
    else if h : next < r.lo then ⟨next, r.lo - 1, by omega⟩ :: gapsFrom (r.hi + 1) rest
    else gapsFrom (r.hi + 1) rest

theorem le_lo_of_mem_gapsFrom {next : Nat} {rs : List CodeRange} {g : CodeRange}
    (hg : g ∈ gapsFrom next rs) (hrs : rs.Pairwise CodeRange.Before)
    (hnext : ∀ r ∈ rs, next ≤ r.hi + 1) : next ≤ g.lo := by
  induction rs generalizing next with
  | nil =>
    have := CodeRange.eq_of_of? (Option.mem_toList.1 hg)
    omega
  | cons r rest ih =>
    have hr := hnext r (by simp)
    have hrest := List.pairwise_cons.1 hrs
    have step : ∀ s ∈ rest, r.hi + 1 ≤ s.hi + 1 := fun s hs => by
      have := hrest.1 s hs
      have := s.lo_le_hi
      simp only [CodeRange.Before] at *
      omega
    unfold gapsFrom at hg
    split at hg
    · have := CodeRange.eq_of_of? (Option.mem_toList.1 hg)
      omega
    · split at hg
      · rcases List.mem_cons.1 hg with rfl | hg
        · exact Nat.le_refl next
        · have := ih hg hrest.2 step
          omega
      · have := ih hg hrest.2 step
        omega

theorem pairwise_gapsFrom {next : Nat} {rs : List CodeRange} (hrs : rs.Pairwise CodeRange.Before) :
    (gapsFrom next rs).Pairwise CodeRange.Before := by
  induction rs generalizing next with
  | nil =>
    unfold gapsFrom
    cases CodeRange.of? next maxCodePoint <;> simp
  | cons r rest ih =>
    have hrest := List.pairwise_cons.1 hrs
    unfold gapsFrom
    split
    · cases CodeRange.of? next maxCodePoint <;> simp
    · split
      · rename_i hlt
        refine List.pairwise_cons.2 ⟨fun g hg => ?_, ih hrest.2⟩
        have := le_lo_of_mem_gapsFrom hg hrest.2 fun s hs => by
          have := hrest.1 s hs
          have := s.lo_le_hi
          simp only [CodeRange.Before] at *
          omega
        have := r.lo_le_hi
        simp only [CodeRange.Before]
        omega
      · exact ih hrest.2

/-- The Unicode code points that are not members.  `endMark` is never among them. -/
def compl (s : CharSet) : CharSet := ⟨gapsFrom 0 s.ranges, pairwise_gapsFrom s.apart⟩

/-- The members of `s` that are not members of `t`.  Whether `endMark` is a member is decided
like for any other code point; code points beyond it are dropped. -/
def diff (s t : CharSet) : CharSet :=
  if s.contains endMark && !t.contains endMark then s.inter (t.compl.union (single endMark))
  else s.inter t.compl

/-- Compares two sets by their ranges, the first difference from below deciding. -/
def compareRanges : List CodeRange → List CodeRange → Ordering
  | [], [] => .eq
  | [], _ :: _ => .lt
  | _ :: _, [] => .gt
  | r :: rs, s :: ss =>
    (compare r.lo s.lo).then ((compare r.hi s.hi).then (compareRanges rs ss))

instance : Ord CharSet := ⟨fun s t => compareRanges s.ranges t.ranges⟩

/-! ## 5. Membership laws -/

theorem mem_def {c : Nat} {s : CharSet} : c ∈ s ↔ s.contains c = true := Iff.rfl

@[simp] theorem not_mem_empty (c : Nat) : ¬ c ∈ empty := by
  simp [mem_def, contains, empty]

@[simp] theorem contains_insert (s : CharSet) (r : CodeRange) (c : Nat) :
    (s.insert r).contains c = (r.contains c || s.contains c) :=
  any_insertRange r s.ranges c

theorem contains_foldr_insert (rs : List CodeRange) (t : CharSet) (c : Nat) :
    (rs.foldr (fun r s => s.insert r) t).contains c = (rs.any (·.contains c) || t.contains c) := by
  induction rs with
  | nil => simp
  | cons r rest ih => simp [ih, Bool.or_assoc]

@[simp] theorem contains_union (s t : CharSet) (c : Nat) :
    (s.union t).contains c = (s.contains c || t.contains c) :=
  contains_foldr_insert s.ranges t c

theorem mem_union {s t : CharSet} {c : Nat} : c ∈ s.union t ↔ c ∈ s ∨ c ∈ t := by
  simp [mem_def]

theorem mem_iff_exists {s : CharSet} {c : Nat} :
    c ∈ s ↔ ∃ r ∈ s.ranges, r.lo ≤ c ∧ c ≤ r.hi := by
  simp [mem_def, contains, CodeRange.contains_iff]

theorem mem_ofRange? {lo hi : Nat} {r : CodeRange} : CodeRange.of? lo hi = some r ↔
    lo ≤ hi ∧ r.lo = lo ∧ r.hi = hi := by
  unfold CodeRange.of?
  split
  · rename_i h
    constructor
    · intro hr
      cases hr
      exact ⟨h, rfl, rfl⟩
    · rintro ⟨-, hlo, hhi⟩
      cases r
      subst hlo hhi
      rfl
  · rename_i h
    constructor
    · intro hr
      cases hr
    · rintro ⟨hle, -⟩
      exact absurd hle h

theorem mem_ofRanges {rs : List CodeRange} {c : Nat} :
    c ∈ ofRanges rs ↔ ∃ r ∈ rs, r.lo ≤ c ∧ c ≤ r.hi := by
  rw [mem_def, ofRanges, contains_foldr_insert]
  simp [CodeRange.contains_iff, contains, empty]

theorem mem_ofPairs {ps : List (Nat × Nat)} {c : Nat} :
    c ∈ ofPairs ps ↔ ∃ p ∈ ps, p.1 ≤ c ∧ c ≤ p.2 := by
  rw [ofPairs, mem_ofRanges]
  constructor
  · rintro ⟨r, hr, hc⟩
    obtain ⟨p, hp, hpr⟩ := List.mem_filterMap.mp hr
    obtain ⟨-, hlo, hhi⟩ := mem_ofRange?.mp hpr
    exact ⟨p, hp, by omega⟩
  · rintro ⟨p, hp, hlo, hhi⟩
    have hr : CodeRange.of? p.1 p.2 = some ⟨p.1, p.2, by omega⟩ :=
      mem_ofRange?.mpr ⟨by omega, rfl, rfl⟩
    exact ⟨_, List.mem_filterMap.mpr ⟨p, hp, hr⟩, hlo, hhi⟩

/-- All members are Unicode code points. -/
def IsUnicode (s : CharSet) : Prop := ∀ c, c ∈ s → c ≤ maxCodePoint

theorem isUnicode_ofPairs {ps : List (Nat × Nat)} (h : ∀ p ∈ ps, p.2 ≤ maxCodePoint) :
    (ofPairs ps).IsUnicode := by
  intro c hc
  obtain ⟨p, hp, -, hle⟩ := mem_ofPairs.mp hc
  exact Nat.le_trans hle (h p hp)

end CharSet

/-! ## 6. Sets with a name -/

namespace CharSet

/-- Letters, digits and the underscore of ASCII. -/
def word : CharSet := ofPairs [(0x30, 0x39), (0x41, 0x5A), (0x5F, 0x5F), (0x61, 0x7A)]

/-- The white space of ASCII. -/
def space : CharSet := ofPairs [(0x09, 0x0D), (0x20, 0x20)]

/-- The digits of ASCII. -/
def digit : CharSet := range 0x30 0x39

/-- Every Unicode code point. -/
def all : CharSet := range 0 maxCodePoint

/-- Every Unicode code point but the line feed. -/
def allButNewline : CharSet := ofPairs [(0, 0x09), (0x0B, maxCodePoint)]

end CharSet

end GrammarTables
