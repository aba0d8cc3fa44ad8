import Mathlib.Data.Finset.NAry
import Mathlib.Data.Finset.Option
import GrammarTables.Proofs.Lr.First
import GrammarTables.Proofs.Ordered
/-
# First sets by passes over the productions

Nullability and first terminals can also be found together.  A pass goes through all productions,
and each adds to the row of its left side what its right side can begin with so far; passes are made
while one changes something.  The passes come to rest at the first sets of the productions
(`FirstSets.restsAt_pass`): they invent nothing, and what is at rest misses nothing.
-/

namespace GrammarTables.Lr.FirstSets

open GrammarTables.Graph (Marked)

variable {p : Productions} {f f' : FirstSets} {x y b left : Nat} {xs ts : List Nat}

/-! ## 1. Passes -/

/-- Before the first pass, terminals begin with themselves and nothing is nullable. -/
def initial (p : Productions) : FirstSets where
  nullable := Array.replicate p.byLeft.size false
  first := ((List.range p.byLeft.size).map fun x => if x < p.terminals then [x] else []).toArray

/-- A symbol can begin with more terminals. -/
def add (f : FirstSets) (x : Nat) (ts : List Nat) : FirstSets :=
  { f with first := f.first.setIfInBounds x (ascending (f.firstOf x ++ ts)) }

/-- A symbol is nullable. -/
def mark (f : FirstSets) (x : Nat) : FirstSets :=
  { f with nullable := f.nullable.setIfInBounds x true }

/-- A left side can begin with what a symbol of its right side can begin with; there is nothing to
add if that is the left side itself. -/
def addSymbol (f : FirstSets) (left x : Nat) : FirstSets :=
  if x = left then f else f.add left (f.firstOf x)

/-- What the rest of a right side adds to the row of its left side: its symbols are gone through up
to the first one that is not known to be nullable. -/
def along (left : Nat) (f : FirstSets) : List Nat → FirstSets
  | [] => f.mark left
  | x :: xs =>
    if (f.addSymbol left x).nullable.getD x false then along left (f.addSymbol left x) xs
    else f.addSymbol left x

/-- One pass over all productions. -/
def pass (p : Productions) (f : FirstSets) : FirstSets :=
  (List.range p.size).foldl (fun f rule => along (p.leftOf rule) f (p.rightOf rule)) f

theorem firstOf_initial (p : Productions) (x : Nat) : (initial p).firstOf x =
    if x < p.byLeft.size ∧ x < p.terminals then [x] else [] := by
  by_cases hx : x < p.byLeft.size
  · simp [initial, firstOf, Array.getD_eq_getD_getElem?, hx]
  · simp [initial, firstOf, Array.getD_eq_getD_getElem?, hx]

theorem mem_firstOf_initial :
    b ∈ (initial p).firstOf x ↔ b = x ∧ x < p.byLeft.size ∧ x < p.terminals := by
  rw [firstOf_initial]
  split
  · rename_i h
    simp [h]
  · rename_i h
    simp [h]

/-! ## 2. What first sets say -/

/-- What first sets say of a symbol: that it is nullable, or that it can begin with a terminal. -/
def Says (f : FirstSets) (x : Nat) : Option Nat → Prop
  | none => Marked f.nullable x
  | some b => b ∈ f.firstOf x

instance (f : FirstSets) (x : Nat) : (o : Option Nat) → Decidable (f.Says x o)
  | none => inferInstanceAs (Decidable (f.nullable[x]? = some true))
  | some b => inferInstanceAs (Decidable (b ∈ f.firstOf x))

/-- Other first sets say all that some say. -/
def Extends (f f' : FirstSets) : Prop := ∀ x o, f.Says x o → f'.Says x o

theorem Extends.refl (f : FirstSets) : f.Extends f := fun _ _ h => h

theorem Extends.trans {f'' : FirstSets} (h : f.Extends f') (h' : f'.Extends f'') :
    f.Extends f'' := fun x o hx => h' x o (h x o hx)

theorem firstOf_add : (f.add x ts).firstOf y =
    if x = y ∧ x < f.first.size then ascending (f.firstOf x ++ ts) else f.firstOf y :=
  getD_setIfInBounds

theorem mem_firstOf_add : b ∈ (f.add x ts).firstOf y ↔
    b ∈ f.firstOf y ∨ y = x ∧ x < f.first.size ∧ b ∈ ts := by
  rw [firstOf_add]
  split
  · rename_i h
    obtain ⟨rfl, hlt⟩ := h
    simp [mem_ascending, hlt]
  · rename_i h
    grind

theorem extends_add : f.Extends (f.add x ts) := by
  rintro y (_ | b) h
  · exact h
  · exact mem_firstOf_add.mpr (Or.inl h)

theorem extends_mark : f.Extends (f.mark x) := by
  rintro y (_ | b) h
  · exact Graph.marked_setIfInBounds.mpr (Or.inl h)
  · exact h

theorem extends_addSymbol : f.Extends (f.addSymbol left x) := by
  unfold addSymbol
  split
  · exact .refl f
  · exact extends_add

theorem extends_along : f.Extends (along left f xs) := by
  induction xs generalizing f with
  | nil => exact extends_mark
  | cons x xs ih =>
    unfold along
    split
    · exact extends_addSymbol.trans ih
    · exact extends_addSymbol

theorem extends_foldl (rules : List Nat) : f.Extends
    (rules.foldl (fun f rule => along (p.leftOf rule) f (p.rightOf rule)) f) := by
  induction rules generalizing f with
  | nil => exact .refl f
  | cons rule rest ih => exact extends_along.trans ih

theorem extends_pass : f.Extends (pass p f) := extends_foldl _

/-! ## 3. One form for what is said -/

/-- There is a row for each symbol, with terminals in ascending order. -/
structure Canonical (p : Productions) (f : FirstSets) : Prop where
  size_nullable : f.nullable.size = p.byLeft.size
  size_first : f.first.size = p.byLeft.size
  ascending : ∀ x, (f.firstOf x).Pairwise (· < ·)
  terminal : ∀ x, ∀ b ∈ f.firstOf x, b < p.terminals

/-- First sets that say the same are the same. -/
theorem Canonical.ext (hf : f.Canonical p) (hf' : f'.Canonical p)
    (h : ∀ x o, f.Says x o ↔ f'.Says x o) : f = f' := by
  have hnullable : f.nullable = f'.nullable :=
    Graph.marks_ext (hf.size_nullable.trans hf'.size_nullable.symm) fun x => h x none
  have hrow : ∀ x, f.firstOf x = f'.firstOf x := fun x =>
    ascending_ext (hf.ascending x) (hf'.ascending x) fun b => h x (some b)
  have hfirst : f.first = f'.first := by
    refine Array.ext (hf.size_first.trans hf'.size_first.symm) fun x hx hx' => ?_
    simpa [firstOf, Array.getD_eq_getD_getElem?, hx, hx'] using hrow x
  cases f
  cases f'
  exact congrArg₂ FirstSets.mk hnullable hfirst

theorem canonical_initial (p : Productions) : (initial p).Canonical p where
  size_nullable := Array.size_replicate
  size_first := by simp [initial]
  ascending x := by
    rw [firstOf_initial]
    split <;> simp
  terminal x b hb := by
    obtain ⟨rfl, -, hlt⟩ := mem_firstOf_initial.mp hb
    exact hlt

theorem Canonical.add (hf : f.Canonical p) (hts : ∀ b ∈ ts, b < p.terminals) :
    (f.add x ts).Canonical p where
  size_nullable := hf.size_nullable
  size_first := Array.size_setIfInBounds.trans hf.size_first
  ascending y := by
    rw [firstOf_add]
    split
    · exact pairwise_ascending _
    · exact hf.ascending y
  terminal y b hb := by
    rcases mem_firstOf_add.mp hb with h | ⟨-, -, h⟩
    · exact hf.terminal y b h
    · exact hts b h

theorem Canonical.mark (hf : f.Canonical p) : (f.mark x).Canonical p where
  size_nullable := Array.size_setIfInBounds.trans hf.size_nullable
  size_first := hf.size_first
  ascending := hf.ascending
  terminal := hf.terminal

theorem Canonical.addSymbol (hf : f.Canonical p) : (f.addSymbol left x).Canonical p := by
  unfold FirstSets.addSymbol
  split
  · exact hf
  · exact hf.add (hf.terminal x)

theorem Canonical.along (hf : f.Canonical p) : (along left f xs).Canonical p := by
  induction xs generalizing f with
  | nil => exact hf.mark
  | cons x xs ih =>
    unfold FirstSets.along
    split
    · exact ih hf.addSymbol
    · exact hf.addSymbol

theorem Canonical.pass (hf : f.Canonical p) : (pass p f).Canonical p :=
  List.foldlRecOn _ _ hf fun _ h _ _ => h.along

theorem canonical_ofProductions (hp : p.Indexed) : (ofProductions p).Canonical p where
  size_nullable := size_nullableMarks p
  size_first := by simp [ofProductions]
  ascending x := by
    rcases Nat.lt_or_ge x p.byLeft.size with hx | hx
    · rw [firstOf_eq hx]
      exact (Graph.pairwise_reachable _ _ _).filter _
    · rw [List.eq_nil_iff_forall_not_mem.mpr fun b hb => Nat.not_lt.mpr hx (lt_of_mem_firstOf hb)]
      exact .nil
  terminal x b hb := ((sound_ofProductions hp).first x b hb).1

/-! ## 4. Passes invent nothing -/

theorem sound_initial (p : Productions) : (initial p).Sound p where
  nullable x hx := by simp [initial, Marked, Array.getElem?_replicate] at hx
  first x b hb := by
    obtain ⟨rfl, -, hlt⟩ := mem_firstOf_initial.mp hb
    exact ⟨hlt, [], .refl⟩

theorem Sound.mark (hf : f.Sound p) (hx : p.Derives [x] []) : (f.mark x).Sound p where
  nullable y hy := by
    rcases Graph.marked_setIfInBounds.mp hy with h | ⟨rfl, -⟩
    · exact hf.nullable y h
    · exact hx
  first := hf.first

theorem Sound.add (hf : f.Sound p)
    (hts : ∀ b ∈ ts, b < p.terminals ∧ ∃ v, p.Derives [x] (b :: v)) : (f.add x ts).Sound p where
  nullable := hf.nullable
  first y b hb := by
    rcases mem_firstOf_add.mp hb with h | ⟨rfl, -, h⟩
    · exact hf.first y b h
    · exact hts b h

/-- What the left side derives by way of the rest of its right side is all that is added. -/
theorem Sound.along (hf : f.Sound p) (hleft : ∀ v, p.Derives xs v → p.Derives [left] v) :
    (along left f xs).Sound p := by
  induction xs generalizing f with
  | nil => exact hf.mark (hleft [] .refl)
  | cons x xs ih =>
    have hstep : (f.addSymbol left x).Sound p := by
      unfold addSymbol
      split
      · exact hf
      · refine hf.add fun b hb => ?_
        obtain ⟨hlt, v, hv⟩ := hf.first x b hb
        exact ⟨hlt, v ++ xs, hleft _ (Productions.Derives.append (u := [x]) hv .refl)⟩
    unfold FirstSets.along
    split
    · rename_i hx
      refine ih hstep fun v hv => hleft v ?_
      have hnil := hstep.nullable x (Graph.marked_iff_getD.mpr hx)
      exact Productions.Derives.append (u := [x]) hnil hv
    · exact hstep

theorem Sound.pass (hf : f.Sound p) : (pass p f).Sound p := by
  refine List.foldlRecOn _ _ hf fun f hf rule hrule => ?_
  exact hf.along fun v hv => Productions.derives_of_rightOf (List.mem_range.mp hrule) hv

/-! ## 5. What is at rest misses nothing -/

@[simp] theorem nullable_addSymbol : (f.addSymbol left x).nullable = f.nullable := by
  unfold addSymbol
  split <;> rfl

@[simp] theorem size_first_addSymbol : (f.addSymbol left x).first.size = f.first.size := by
  unfold addSymbol
  split
  · rfl
  · exact Array.size_setIfInBounds

theorem mem_firstOf_addSymbol (hleft : left < f.first.size) (hb : b ∈ f.firstOf x) :
    b ∈ (f.addSymbol left x).firstOf left := by
  unfold addSymbol
  split
  · rename_i heq
    exact heq ▸ hb
  · exact mem_firstOf_add.mpr (Or.inr ⟨rfl, hleft, hb⟩)

theorem marked_along (hleft : left < f.nullable.size) (h : ∀ x ∈ xs, Marked f.nullable x) :
    Marked (along left f xs).nullable left := by
  induction xs generalizing f with
  | nil => exact Graph.marked_setIfInBounds.mpr (Or.inr ⟨rfl, hleft⟩)
  | cons x xs ih =>
    rw [along, nullable_addSymbol, if_pos (Graph.marked_iff_getD.mp (h x (by simp)))]
    refine ih (by simpa using hleft) fun y hy => ?_
    rw [nullable_addSymbol]
    exact h y (List.mem_cons_of_mem x hy)

theorem mem_firstOf_along (hleft : left < f.first.size) (hy : y ∈ leading f.nullable xs)
    (hb : b ∈ f.firstOf y) : b ∈ (along left f xs).firstOf left := by
  induction xs generalizing f with
  | nil => cases hy
  | cons x xs ih =>
    rw [along, nullable_addSymbol]
    rcases List.mem_cons.mp hy with rfl | hy
    · have hadded := mem_firstOf_addSymbol hleft hb
      split
      · exact extends_along left (some b) hadded
      · exact hadded
    · split at hy
      · rename_i hx
        rw [if_pos hx]
        exact ih (by simpa using hleft) (by simpa using hy) (extends_addSymbol y (some b) hb)
      · cases hy

/-- Where some productions together change nothing, none of them does: what one adds is kept by the
others. -/
theorem along_eq_of_foldl_eq (hf : f.Canonical p) {rules : List Nat} {rule : Nat}
    (h : rules.foldl (fun f rule => along (p.leftOf rule) f (p.rightOf rule)) f = f)
    (hrule : rule ∈ rules) : along (p.leftOf rule) f (p.rightOf rule) = f := by
  induction rules with
  | nil => cases hrule
  | cons r rest ih =>
    have hidle : along (p.leftOf r) f (p.rightOf r) = f := by
      refine hf.along.ext hf fun x o => ⟨fun hx => ?_, extends_along x o⟩
      exact h ▸ extends_foldl (p := p) rest x o hx
    rcases List.mem_cons.mp hrule with rfl | hrule
    · exact hidle
    · rw [List.foldl_cons, hidle] at h
      exact ih h hrule

theorem along_eq_of_pass_eq (hf : f.Canonical p) (h : pass p f = f) {rule : Nat}
    (hrule : rule < p.size) : along (p.leftOf rule) f (p.rightOf rule) = f :=
  along_eq_of_foldl_eq hf h (List.mem_range.mpr hrule)

/-- **What is at rest takes each production into account.** -/
theorem closed_of_rest (hp : p.Indexed) (hf : f.Canonical p) (hinitial : (initial p).Extends f)
    (h : pass p f = f) : f.Closed p where
  nullable rule hrule hright := by
    rw [← along_eq_of_pass_eq hf h hrule]
    exact marked_along (hf.size_nullable ▸ hp.leftOf_lt hrule) hright
  terminal a ha := hinitial a (some a)
    (mem_firstOf_initial.mpr ⟨rfl, Nat.lt_of_lt_of_le ha hp.terminals_le, ha⟩)
  first rule hrule y hy b hb := by
    rw [← along_eq_of_pass_eq hf h hrule]
    exact mem_firstOf_along (hf.size_first ▸ hp.leftOf_lt hrule) hy hb

/-- Sound and closed first sets are the ones of the productions. -/
theorem eq_ofProductions (hp : p.Indexed) (hf : f.Canonical p) (hsound : f.Sound p)
    (hclosed : f.Closed p) : f = ofProductions p := by
  have hsound' := sound_ofProductions hp
  have hclosed' := closed_ofProductions hp
  refine hf.ext (canonical_ofProductions hp) fun x o => ?_
  cases o with
  | none =>
    have hiff : f.isNullable [x] = true ↔ (ofProductions p).isNullable [x] = true :=
      (isNullable_iff hsound hclosed).trans (isNullable_iff hsound' hclosed').symm
    simpa [Says, isNullable, allMarked_iff] using hiff
  | some b => exact (mem_firstOf_iff hsound hclosed).trans (mem_firstOf_iff hsound' hclosed').symm

/-! ## 6. The passes end -/

/-- All that first sets say of symbols. -/
def sayings (p : Productions) (f : FirstSets) : Finset (Nat × Option Nat) :=
  (Finset.range p.byLeft.size ×ˢ Finset.insertNone (Finset.range p.terminals)).filter
    fun e => f.Says e.1 e.2

theorem Canonical.mem_sayings (hf : f.Canonical p) {o : Option Nat} :
    (x, o) ∈ sayings p f ↔ f.Says x o := by
  simp only [sayings, Finset.mem_filter, Finset.mem_product, Finset.mem_range,
    and_iff_right_iff_imp]
  intro h
  cases o with
  | none => exact ⟨hf.size_nullable ▸ Graph.lt_of_marked h, by simp⟩
  | some b => exact ⟨hf.size_first ▸ lt_size_of_mem_getD h, by simpa using hf.terminal x b h⟩

/-- **The passes come to rest at the first sets of the productions.** -/
theorem restsAt_pass (hp : p.Indexed) : RestsAt (pass p) (initial p) (ofProductions p) := by
  obtain ⟨k, -, hrest⟩ := exists_rest (sayings p) _ (P := (Canonical p ·))
    (fun _ hf => hf.pass) (fun _ _ => Finset.filter_subset _ _)
    (fun _ hf _ he => hf.pass.mem_sayings.mpr (extends_pass _ _ (hf.mem_sayings.mp he)))
    (fun _ hf h => hf.pass.ext hf fun x o => by
      rw [← hf.pass.mem_sayings, h, hf.mem_sayings])
    (canonical_initial p)
  have hrests := restsAt_of_rest hrest
  have hcanonical : Canonical p _ := hrests.preserves (fun _ hf => hf.pass) (canonical_initial p)
  have hsound : Sound p _ := hrests.preserves (fun _ hf => hf.pass) (sound_initial p)
  have hextends : Extends (initial p) _ :=
    hrests.preserves (fun _ hf => hf.trans extends_pass) (Extends.refl (initial p))
  have hclosed := closed_of_rest hp hcanonical hextends hrest
  rwa [eq_ofProductions hp hcanonical hsound hclosed] at hrests

/-! ## 7. What the first sets are -/

/-- **First sets are exact.**  The passes over the productions end with them, with a row for each
symbol.  A symbol is nullable if and only if it derives the empty sequence, and can begin with the
terminals that begin something it derives; the same holds of sequences of symbols. -/
theorem firstSets_exact (hp : p.Indexed) :
    RestsAt (pass p) (initial p) (ofProductions p) ∧ (ofProductions p).Canonical p ∧
    (∀ x, ((ofProductions p).nullable[x]? = some true ↔ p.Derives [x] []) ∧
      ∀ t, t ∈ (ofProductions p).firstOf x ↔ t < p.terminals ∧ ∃ v, p.Derives [x] (t :: v)) ∧
    ∀ xs, ((ofProductions p).isNullable xs = true ↔ p.Derives xs []) ∧
      ((ofProductions p).ofSeq xs).Pairwise (· < ·) ∧
      ∀ t, t ∈ (ofProductions p).ofSeq xs ↔ t < p.terminals ∧ ∃ v, p.Derives xs (t :: v) := by
  have hsound := sound_ofProductions hp
  have hclosed := closed_ofProductions hp
  refine ⟨restsAt_pass hp, canonical_ofProductions hp, fun x => ⟨?_, fun t => ?_⟩,
    fun xs => ⟨isNullable_iff hsound hclosed, pairwise_ascending _, fun t => ?_⟩⟩
  · have hiff : (ofProductions p).isNullable [x] = true ↔ p.Derives [x] [] :=
      isNullable_iff hsound hclosed
    simpa [isNullable, allMarked_iff, Marked] using hiff
  · exact mem_firstOf_iff hsound hclosed
  · exact mem_ofSeq_iff hsound hclosed

/-- A list of items that may be empty, an item that may end with an option, and a nonterminal
without productions. -/
def listProductions : Productions where
  left := #[4, 4, 5, 5, 6, 6, 8]
  right := #[[], [4, 5], [1], [2, 6], [], [3], [4]]
  byLeft := #[[], [], [], [], [0, 1], [2, 3], [4, 5], [], [6]]
  terminals := 4
  symbols := 8
  rules := 6

theorem indexed_listProductions : listProductions.Indexed where
  size_right := rfl
  mem_rulesOf {rule x} := by
    have hrows : ∀ x < 9, ∀ rule < 7, rule ∈ listProductions.rulesOf x ↔
        rule < listProductions.size ∧ listProductions.leftOf rule = x := by decide
    have hlt : ∀ x < 9, ∀ rule ∈ listProductions.rulesOf x, rule < 7 := by decide
    have hleft : ∀ rule < 7, listProductions.leftOf rule < 9 := by decide
    constructor
    · intro h
      have hx : x < 9 := lt_size_of_mem_getD h
      exact (hrows x hx rule (hlt x hx rule h)).mp h
    · rintro ⟨hrule, rfl⟩
      exact (hrows _ (hleft rule hrule) rule hrule).mpr ⟨hrule, rfl⟩
  terminals_le := by decide
  right_lt {rule x} hx := by
    have hrows : ∀ rule < 7, ∀ x ∈ listProductions.rightOf rule, x < 9 := by decide
    exact hrows rule (lt_size_of_mem_getD hx) x hx

/-- A list can be empty or begin with an item, what has no productions is not empty, and an option
before an item can be left out. -/
theorem firstSets_list : listProductions.Indexed ∧
    (∃ f, RestsAt (pass listProductions) (initial listProductions) f) ∧
    listProductions.Derives [8] [] ∧ (∃ v, listProductions.Derives [8] (2 :: v)) ∧
    ¬ listProductions.Derives [7] [] ∧ ¬ listProductions.Derives [6, 5] [] ∧
    ∃ v, listProductions.Derives [6, 5] (2 :: v) := by
  obtain ⟨hrests, -, hsymbol, hseq⟩ := firstSets_exact indexed_listProductions
  refine ⟨indexed_listProductions, ⟨_, hrests⟩, (hsymbol 8).1.mp (by decide +kernel),
    (((hsymbol 8).2 2).mp (by decide +kernel)).2, fun h => ?_, fun h => ?_,
    (((hseq [6, 5]).2.2 2).mp (by decide +kernel)).2⟩
  · exact absurd ((hsymbol 7).1.mpr h) (by decide +kernel)
  · exact absurd ((hseq [6, 5]).1.mpr h) (by decide +kernel)

end GrammarTables.Lr.FirstSets
