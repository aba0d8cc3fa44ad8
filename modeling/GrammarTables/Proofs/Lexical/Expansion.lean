import Mathlib.Data.List.Chain
import Mathlib.Data.List.Nodup
import GrammarTables.Lexical.Plan
import GrammarTables.Proofs.Reachability
import GrammarTables.Proofs.Grammar.Frozen
import GrammarTables.Proofs.Lexical.InPlace
import GrammarTables.Proofs.Lexical.Resolve
import GrammarTables.Proofs.Regex.Syntax
/-
# Patterns inside patterns

A pattern is put in where its name stands, and the patterns that it refers to are put into it, so
that what has to be read for a tree is more than the tree.  Patterns that refer to themselves,
directly or through others, are found exactly (`mem_cyclicPatterns`).  When they cannot be used, no
chain of references that are followed has a pattern twice (`length_le_of_chain`): such a chain is no
longer than the list of patterns, and what a tree needs ends (`wellFounded_needs`).

So the depth to which sets and fragments are computed is no restriction: they are what the equations
without a depth say, and these have no other solution (`Expands.solution_iff`).  A rule that needs a
name which cannot be used is not compiled (`compileRule_of_needs`).
-/

namespace GrammarTables.Lexical

open Regex (Tree TextRange FlagChange SetOp)

/-! ## 1. Patterns that refer to themselves -/

/-- The pattern of index `i` refers to the pattern of index `j` by its name. -/
def RefersTo (patterns : List NamedPattern) (i j : Nat) : Prop :=
  ∃ p q r, patterns[i]? = some p ∧ patterns[j]? = some q ∧ .expand r q.name ∈ p.regex.root.preorder

theorem mem_references {t : Tree} {name : String} :
    name ∈ t.references ↔ ∃ r, .expand r name ∈ t.preorder := by
  unfold Tree.references
  rw [List.mem_filterMap]
  constructor
  · rintro ⟨u, hu, hname⟩
    split at hname
    · cases hname
      exact ⟨_, hu⟩
    · cases hname
  · rintro ⟨r, hr⟩
    exact ⟨_, hr, rfl⟩

/-- Names that differ are found where they stand. -/
theorem findIdx?_name {patterns : List NamedPattern} (hnames : (patterns.map (·.name)).Nodup)
    {name : String} {j : Nat} : patterns.findIdx? (fun q => q.name == name) = some j ↔
      ∃ q, patterns[j]? = some q ∧ q.name = name := by
  rw [List.findIdx?_eq_some_iff_getElem]
  constructor
  · rintro ⟨hj, hname, -⟩
    exact ⟨patterns[j], List.getElem?_eq_getElem hj, by simpa using hname⟩
  · rintro ⟨q, hq, rfl⟩
    obtain ⟨hj, rfl⟩ := List.getElem?_eq_some_iff.mp hq
    refine ⟨hj, by simp, fun i hij hsame => ?_⟩
    have hi : i < patterns.length := Nat.lt_trans hij hj
    have heq : (patterns.map (·.name))[i]? = (patterns.map (·.name))[j]? := by
      simpa [hi, hj] using hsame
    exact Nat.ne_of_lt hij ((List.getElem?_inj (by simpa using hi) hnames).mp heq)

/-- The patterns that each pattern refers to, by their indices. -/
def referenceRows (patterns : List NamedPattern) : Array (List Nat) :=
  (patterns.map fun p => p.regex.root.references.filterMap fun name =>
    patterns.findIdx? fun q => q.name == name).toArray

theorem mem_referenceRows {patterns : List NamedPattern} (hnames : (patterns.map (·.name)).Nodup)
    {i j : Nat} : j ∈ (referenceRows patterns).getD i [] ↔ RefersTo patterns i j := by
  rw [referenceRows, Array.getD_eq_getD_getElem?, List.getElem?_toArray, List.getElem?_map]
  unfold RefersTo
  cases patterns[i]? with
  | none => simp
  | some p =>
    simp only [Option.map_some, Option.getD_some, List.mem_filterMap, findIdx?_name hnames,
      mem_references]
    constructor
    · rintro ⟨name, ⟨r, hr⟩, q, hq, rfl⟩
      exact ⟨p, q, r, rfl, hq, hr⟩
    · rintro ⟨_, q, r, hp, hq, hr⟩
      cases hp
      exact ⟨q.name, ⟨r, hr⟩, q, hq, rfl⟩

theorem RefersTo.lt_length {patterns : List NamedPattern} {i j : Nat}
    (h : RefersTo patterns i j) : i < patterns.length ∧ j < patterns.length := by
  obtain ⟨p, q, -, hp, hq, -⟩ := h
  exact ⟨(List.getElem?_eq_some_iff.mp hp).1, (List.getElem?_eq_some_iff.mp hq).1⟩

/-- **The patterns that cannot be used are those from which references lead back.** -/
theorem mem_cyclicPatterns {patterns : List NamedPattern}
    (hnames : (patterns.map (·.name)).Nodup) {i : Nat} :
    i ∈ cyclicPatterns patterns ↔ Relation.TransGen (RefersTo patterns) i i := by
  have hstep : (fun v w => w ∈ (referenceRows patterns).getD v [] ∧ w < patterns.length)
      = RefersTo patterns := by
    funext v w
    rw [mem_referenceRows hnames, eq_iff_iff]
    exact and_iff_left_of_imp fun h => h.lt_length.2
  have hmem : i ∈ cyclicPatterns patterns ↔ i < patterns.length ∧ Graph.Marked
      (Graph.reach patterns.length (fun v => (referenceRows patterns).getD v [])
        ((referenceRows patterns).getD i [])) i := by
    rw [Graph.marked_iff_getD, ← List.mem_range]
    exact List.mem_filter
  rw [hmem, Graph.reach_iff, Relation.TransGen.head'_iff]
  unfold Graph.Leads
  rw [hstep]
  constructor
  · rintro ⟨-, v, hv, -, hpath⟩
    exact ⟨v, (mem_referenceRows hnames).mp hv, hpath⟩
  · rintro ⟨v, hv, hpath⟩
    exact ⟨hv.lt_length.1, v, (mem_referenceRows hnames).mpr hv, hv.lt_length.2, hpath⟩

theorem pairwise_cyclicPatterns (patterns : List NamedPattern) :
    (cyclicPatterns patterns).Pairwise (· < ·) :=
  List.pairwise_lt_range.filter _

/-! ## 2. Chains of references -/

/-- Patterns that refer to themselves cannot be used. -/
def PatternTable.BarsCycles (table : PatternTable) : Prop :=
  ∀ i ∈ cyclicPatterns table.patterns, ∀ p, table.patterns[i]? = some p → p.name ∈ table.unusable

theorem barsCycles_patternTable (g : Grammar) : (patternTable g).1.BarsCycles := by
  intro i hi p hp
  have hcyclic : p ∈ (cyclicPatterns g.patterns.toList).filterMap fun i => g.patterns.toList[i]? :=
    List.mem_filterMap.mpr ⟨i, hi, hp⟩
  exact List.mem_append_right _ (List.mem_map_of_mem hcyclic)

theorem PatternTable.find_eq_ok {table : PatternTable} {name : String} {p : NamedPattern} :
    table.find name = .ok p ↔
      name ∉ table.unusable ∧ table.patterns.find? (fun q => q.name == name) = some p := by
  unfold PatternTable.find
  by_cases hname : name ∈ table.unusable
  · simp [hname]
  · cases table.patterns.find? (fun q => q.name == name) <;> simp [hname]

/-- The pattern of the name `x` can be used and refers to the name `y`, which can be used too. -/
def PatternTable.Opens (table : PatternTable) (x y : String) : Prop :=
  ∃ p q r, table.find x = .ok p ∧ table.find y = .ok q ∧ .expand r y ∈ p.regex.root.preorder

section Chains

variable {table : PatternTable}

/-- Where the pattern of a name stands. -/
theorem getElem?_findIdx_of_find {name : String} {p : NamedPattern}
    (h : table.find name = .ok p) :
    table.patterns[table.patterns.findIdx fun q => q.name == name]? = some p ∧ p.name = name := by
  have hfind := (PatternTable.find_eq_ok.mp h).2
  refine ⟨?_, by simpa using List.find?_some hfind⟩
  rw [← hfind, List.find?_eq_getElem?_findIdx]

/-- **No chain of references that are followed has a pattern twice.** -/
theorem nodup_of_chain (hnames : (table.patterns.map (·.name)).Nodup) (hbars : table.BarsCycles)
    {names : List String} (hchain : names.IsChain table.Opens)
    (hfound : ∀ x ∈ names, ∃ p, table.find x = .ok p) : names.Nodup := by
  let index (name : String) : Nat := table.patterns.findIdx fun q => q.name == name
  let Leads (x y : String) : Prop := Relation.TransGen (RefersTo table.patterns) (index x) (index y)
  have hleads : names.IsChain Leads := by
    refine hchain.imp ?_
    rintro x y ⟨p, q, r, hx, hy, hr⟩
    obtain ⟨hp, -⟩ := getElem?_findIdx_of_find hx
    obtain ⟨hq, rfl⟩ := getElem?_findIdx_of_find hy
    exact .single ⟨p, q, r, hp, hq, hr⟩
  have : Trans Leads Leads Leads := ⟨fun h h' => h.trans h'⟩
  refine hleads.pairwise.imp_of_mem ?_
  rintro x y hx - hxy rfl
  -- a name that leads back to itself cannot be used
  obtain ⟨p, hp⟩ := hfound x hx
  obtain ⟨hindex, rfl⟩ := getElem?_findIdx_of_find hp
  exact (PatternTable.find_eq_ok.mp hp).1 (hbars _ ((mem_cyclicPatterns hnames).mpr hxy) p hindex)

/-- **A chain of references that are followed is no longer than the list of patterns.** -/
theorem length_le_of_chain (hnames : (table.patterns.map (·.name)).Nodup)
    (hbars : table.BarsCycles) {names : List String} (hchain : names.IsChain table.Opens)
    (hfound : ∀ x ∈ names, ∃ p, table.find x = .ok p) :
    names.length ≤ table.patterns.length := by
  have hsub : names ⊆ table.patterns.map (·.name) := by
    intro x hx
    obtain ⟨p, hp⟩ := hfound x hx
    obtain ⟨hindex, rfl⟩ := getElem?_findIdx_of_find hp
    exact List.mem_map_of_mem (List.mem_of_getElem? hindex)
  simpa using (nodup_of_chain hnames hbars hchain hfound).length_le_of_subset hsub

/-- At most `d` patterns are put into each other where the name stands. -/
def PatternTable.Depth (table : PatternTable) : Nat → String → Prop
  | 0, name => ∀ p, table.find name ≠ .ok p
  | d + 1, name => ∀ p r y, table.find name = .ok p → .expand r y ∈ p.regex.root.preorder →
      table.Depth d y

/-- A name that is deeper begins a longer chain. -/
theorem exists_chain_of_not_depth : ∀ {d : Nat} {name : String}, ¬ table.Depth d name →
    ∃ names : List String, names.length = d ∧ (name :: names).IsChain table.Opens ∧
      ∀ x ∈ name :: names, ∃ p, table.find x = .ok p
  | 0, name, h => by
    obtain ⟨p, hp⟩ : ∃ p, table.find name = .ok p := by
      simpa only [PatternTable.Depth, ne_eq, not_forall, not_not] using h
    exact ⟨[], rfl, .singleton _, List.forall_mem_singleton.mpr ⟨p, hp⟩⟩
  | d + 1, name, h => by
    simp only [PatternTable.Depth, not_forall] at h
    obtain ⟨p, r, y, hp, hr, hy⟩ := h
    obtain ⟨names, hlen, hchain, hfound⟩ := exists_chain_of_not_depth hy
    obtain ⟨q, hq⟩ := hfound y List.mem_cons_self
    exact ⟨y :: names, by rw [List.length_cons, hlen], .cons_cons ⟨p, q, r, hp, hq, hr⟩ hchain,
      List.forall_mem_cons.mpr ⟨⟨p, hp⟩, hfound⟩⟩

theorem depth_of_barsCycles (hnames : (table.patterns.map (·.name)).Nodup)
    (hbars : table.BarsCycles) (name : String) : table.Depth table.patterns.length name := by
  by_contra h
  obtain ⟨names, hlen, hchain, hfound⟩ := exists_chain_of_not_depth h
  have hle := length_le_of_chain hnames hbars hchain hfound
  rw [List.length_cons, hlen] at hle
  exact Nat.not_succ_le_self _ hle

end Chains

/-! ## 3. What a tree needs -/

/-- What has to be read for a tree: its parts, unless no copies of them are asked for, and the
pattern that it refers to. -/
inductive Needs (table : PatternTable) : Tree → Tree → Prop
  | seq {r : TextRange} {items : List Tree} {u : Tree} : u ∈ items → Needs table (.seq r items) u
  | alt {r : TextRange} {items : List Tree} {u : Tree} : u ∈ items → Needs table (.alt r items) u
  | group {r : TextRange} {change : Option FlagChange} {inner : Tree} :
      Needs table (.group r change inner) inner
  | repeated {r : TextRange} {inner : Tree} {min : Nat} {max : Option Nat} :
      ¬ (min = 0 ∧ max = some 0) → Needs table (.repeated r inner min max) inner
  | left {r : TextRange} {op : SetOp} {left right : Tree} :
      Needs table (.algebra r op left right) left
  | right {r : TextRange} {op : SetOp} {left right : Tree} :
      Needs table (.algebra r op left right) right
  | expand {r : TextRange} {name : String} {p : NamedPattern} :
      table.find name = .ok p → Needs table (.expand r name) p.regex.root

section Termination

variable {table : PatternTable}

/-- What a tree needs is a part of it, or the pattern that it refers to. -/
theorem Needs.part_or_pattern {t u : Tree} (h : Needs table t u) :
    u ∈ t.parts ∨ ∃ r name p, t = .expand r name ∧ table.find name = .ok p ∧ u = p.regex.root := by
  cases h with
  | seq hu => exact .inl hu
  | alt hu => exact .inl hu
  | group => exact .inl List.mem_cons_self
  | repeated => exact .inl List.mem_cons_self
  | left => exact .inl List.mem_cons_self
  | right => exact .inl (List.mem_cons_of_mem _ List.mem_cons_self)
  | expand hp => exact .inr ⟨_, _, _, rfl, hp, rfl⟩

theorem sizeOf_lt_of_mem_parts {t u : Tree} (h : u ∈ t.parts) : sizeOf u < sizeOf t := by
  cases t with
  | seq r items | alt r items =>
    have hlt : sizeOf u < sizeOf items := List.sizeOf_lt_of_mem h
    simp only [Tree.seq.sizeOf_spec, Tree.alt.sizeOf_spec]
    omega
  | group r change inner | notFollowedBy r inner | repeated r inner min max =>
    obtain rfl := List.mem_singleton.mp h
    simp only [Tree.group.sizeOf_spec, Tree.notFollowedBy.sizeOf_spec, Tree.repeated.sizeOf_spec]
    omega
  | algebra r op left right =>
    rcases List.mem_pair.mp h with rfl | rfl <;> (simp only [Tree.algebra.sizeOf_spec]; omega)
  | empty | char | set | any | eoi | expand | placeholder => exact absurd h List.not_mem_nil

theorem mem_preorder_of_mem_parts {t u v : Tree} (hu : u ∈ t.parts) (hv : v ∈ u.preorder) :
    v ∈ t.preorder := by
  rw [Tree.preorder_eq]
  exact List.mem_cons_of_mem _ (Tree.mem_preorderAll.mpr ⟨u, hu, hv⟩)

/-- Reading a tree ends if reading the patterns that it refers to ends. -/
theorem acc_of_references (t : Tree) (h : ∀ r name, .expand r name ∈ t.preorder →
    Acc (flip (Needs table)) (.expand r name)) : Acc (flip (Needs table)) t := by
  refine ⟨_, fun u hu => ?_⟩
  rcases Needs.part_or_pattern hu with hpart | ⟨r, name, p, rfl, -⟩
  · have := sizeOf_lt_of_mem_parts hpart
    exact acc_of_references u fun r name hx => h r name (mem_preorder_of_mem_parts hpart hx)
  · exact (h r name List.mem_cons_self).inv hu
termination_by sizeOf t

theorem acc_of_depth : ∀ {d : Nat} {name : String}, table.Depth d name → ∀ r,
    Acc (flip (Needs table)) (.expand r name)
  | 0, name, h, r => ⟨_, fun u hu => by cases hu with | expand hp => exact absurd hp (h _)⟩
  | d + 1, name, h, r => by
    refine ⟨_, fun u hu => ?_⟩
    cases hu with
    | expand hp => exact acc_of_references _ fun r' y hy => acc_of_depth (h _ r' y hp hy) r'

/-- **Reading a tree ends.** -/
theorem wellFounded_needs (hnames : (table.patterns.map (·.name)).Nodup)
    (hbars : table.BarsCycles) : WellFounded (flip (Needs table)) :=
  ⟨fun t => acc_of_references t fun r name _ =>
    acc_of_depth (depth_of_barsCycles hnames hbars name) r⟩

end Termination

/-! ## 4. The depth is no restriction -/

/-- Two values of names are the same for all names in a tree. -/
def AgreeOn {P : Type} (t : Tree) (f g : String → Flags → P) : Prop :=
  ∀ r name, .expand r name ∈ t.preorder → f name = g name

theorem AgreeOn.part {P : Type} {t u : Tree} {f g : String → Flags → P} (h : AgreeOn t f g)
    (hu : u ∈ t.parts) : AgreeOn u f g :=
  fun r name hx => h r name (mem_preorder_of_mem_parts hu hx)

/-- A value of trees by way of values of names: `eval` is the value of a tree where the values of
names are known, `put` is the value of a name where the values of trees are known, and `approx` are
the values of names for a limited depth. -/
structure Expands (table : PatternTable) {P V : Type}
    (eval : (String → Flags → P) → Flags → Tree → V)
    (put : (Flags → Tree → V) → String → Flags → P) (approx : Nat → String → Flags → P) : Prop where
  /-- The value of a tree depends on the names in it. -/
  eval_congr : ∀ f g t, AgreeOn t f g → ∀ flags, eval f flags t = eval g flags t
  /-- The value of a name depends on the tree of the pattern. -/
  put_congr : ∀ v w name, (∀ p flags, table.find name = .ok p →
    v flags p.regex.root = w flags p.regex.root) → put v name = put w name
  zero : ∀ v name, (∀ p, table.find name ≠ .ok p) → approx 0 name = put v name
  succ : ∀ d name, approx (d + 1) name = put (eval (approx d)) name

namespace Expands

variable {table : PatternTable} {P V : Type} {eval : (String → Flags → P) → Flags → Tree → V}
  {put : (Flags → Tree → V) → String → Flags → P} {approx : Nat → String → Flags → P}

/-- One more level changes nothing for a name that is not so deep. -/
theorem approx_succ (h : Expands table eval put approx) : ∀ {d : Nat} {name : String},
    table.Depth d name → approx (d + 1) name = approx d name
  | 0, name, hd => by rw [h.succ, h.zero _ name hd]
  | d + 1, name, hd => by
    rw [h.succ (d + 1), h.succ d]
    refine h.put_congr _ _ name fun p flags hp => h.eval_congr _ _ _ (fun r y hy => ?_) flags
    exact h.approx_succ (hd p r y hp hy)

/-- A solution of the equations has the values of names that are computed. -/
theorem put_eq_approx (h : Expands table eval put approx) {v : Flags → Tree → V}
    (hv : v = eval (put v)) : ∀ {d : Nat} {name : String},
    table.Depth d name → put v name = approx d name
  | 0, name, hd => (h.zero v name hd).symm
  | d + 1, name, hd => by
    rw [h.succ d]
    refine h.put_congr _ _ name fun p flags hp => ?_
    rw [hv]
    exact h.eval_congr _ _ _ (fun r y hy => h.put_eq_approx hv (hd p r y hp hy)) flags

/-- **What is computed to a sufficient depth is the one solution of the equations.** -/
theorem solution_iff (h : Expands table eval put approx) {d : Nat}
    (hd : ∀ name, table.Depth d name) {v : Flags → Tree → V} :
    v = eval (put v) ↔ v = eval (approx d) := by
  constructor
  · intro hv
    have hput : put v = approx d := funext fun name => h.put_eq_approx hv (hd name)
    rwa [hput] at hv
  · rintro rfl
    have hput : put (eval (approx d)) = approx d := by
      funext name
      rw [← h.succ, h.approx_succ (hd name)]
    rw [hput]

end Expands

/-! ## 5. Sets and fragments as equations -/

/-- The set of a named pattern is that of its tree. -/
def PatternTable.setOf (table : PatternTable)
    (value : Flags → Tree → Except ResolveError CharSet) (name : String) (flags : Flags) :
    Except Cause CharSet :=
  (table.find name).bind fun p => (value flags p.regex.root).mapError (·.cause)

/-- The fragment of a named pattern is added for its tree. -/
def PatternTable.fragmentOf (table : PatternTable)
    (value : Flags → Tree → Compile ResolveError Fragment) (name : String) (flags : Flags) :
    Compile Cause Fragment := do
  let p ← Compile.ofExcept (table.find name)
  (value flags p.regex.root).adaptExcept fun e => .inPattern name e.cause

/-- Adds a fragment for a tree, as for the trees of a rule. -/
def compileTree (table : PatternTable) (limit : Nat) (flags : Flags) (t : Tree) :
    Compile ResolveError Fragment :=
  compileWith (resolveSet table) (compilePattern table limit table.patterns.length) limit flags t

mutual

/-- The set of a tree depends on the patterns that the tree refers to. -/
theorem setWith_congr {f g : String → Flags → Except Cause CharSet} : ∀ (t : Tree), AgreeOn t f g →
    ∀ flags, setWith f flags t = setWith g flags t
  | .expand r name, h, flags => by
    rw [setWith, setWith, h r name List.mem_cons_self]
  | .group r change inner, h, flags => by
    rw [setWith, setWith]
    exact setWith_congr inner (h.part List.mem_cons_self) (flags.apply change)
  | .alt r items, h, flags => by
    rw [setWith, setWith]
    exact unionWith_congr items (fun u hu => h.part hu) flags .empty
  | .algebra r op left right, h, flags => by
    rw [setWith, setWith, setWith_congr left (h.part List.mem_cons_self),
      setWith_congr right (h.part (List.mem_cons_of_mem _ List.mem_cons_self))]
  | .char .., _, _ | .set .., _, _ | .any .., _, _ | .empty .., _, _ | .eoi .., _, _ | .seq .., _, _
  | .notFollowedBy .., _, _ | .repeated .., _, _ | .placeholder .., _, _ => by rw [setWith, setWith]

theorem unionWith_congr {f g : String → Flags → Except Cause CharSet} : ∀ (ts : List Tree),
    (∀ t ∈ ts, AgreeOn t f g) → ∀ flags s, unionWith f flags s ts = unionWith g flags s ts
  | [], _, _, _ => by rw [unionWith, unionWith]
  | t :: ts, h, flags, s => by
    rw [unionWith, unionWith, setWith_congr t (h t List.mem_cons_self)]
    refine congrArg (setWith g flags t).bind (funext fun u => ?_)
    exact unionWith_congr ts (fun u hu => h u (List.mem_cons_of_mem t hu)) flags (s.union u)

end

section

variable {set : Flags → Tree → Except ResolveError CharSet} {limit : Nat}
  {f g : String → Flags → Compile Cause Fragment}

mutual

/-- The fragment of a tree depends on the patterns that the tree refers to. -/
theorem compileWith_congr : ∀ (t : Tree), AgreeOn t f g →
    ∀ flags, compileWith set f limit flags t = compileWith set g limit flags t
  | .expand r name, h, flags => by
    rw [compileWith, compileWith, h r name List.mem_cons_self]
  | .seq r items, h, flags => by
    have hitems := compileSeq_congr items (fun u hu => h.part hu) flags
    rw [compileWith, compileWith]
    simp only [hitems]
  | .alt r items, h, flags => by
    have hitems := compileAlt_congr items (fun u hu => h.part hu) flags
    rw [compileWith, compileWith]
    simp only [hitems]
  | .group r change inner, h, flags => by
    rw [compileWith, compileWith]
    exact compileWith_congr inner (h.part List.mem_cons_self) (flags.apply change)
  | .repeated r inner min max, h, flags => by
    rw [compileWith, compileWith, compileWith_congr inner (h.part List.mem_cons_self)]
  | .char .., _, _ | .set .., _, _ | .any .., _, _ | .empty .., _, _ | .eoi .., _, _
  | .notFollowedBy .., _, _ | .algebra .., _, _ | .placeholder .., _, _ => by
    rw [compileWith, compileWith]

theorem compileSeq_congr : ∀ (ts : List Tree), (∀ t ∈ ts, AgreeOn t f g) →
    ∀ flags cur, compileSeq set f limit flags ts cur = compileSeq set g limit flags ts cur
  | [], _, _, _ => by rw [compileSeq, compileSeq]
  | t :: ts, h, flags, cur => by
    have hrest := compileSeq_congr ts (fun u hu => h u (List.mem_cons_of_mem t hu)) flags
    rw [compileSeq, compileSeq, compileWith_congr t (h t List.mem_cons_self)]
    simp only [hrest]

theorem compileAlt_congr : ∀ (ts : List Tree), (∀ t ∈ ts, AgreeOn t f g) → ∀ flags start stop,
    compileAlt set f limit flags ts start stop = compileAlt set g limit flags ts start stop
  | [], _, _, _, _ => by rw [compileAlt, compileAlt]
  | t :: ts, h, flags, start, stop => by
    have hrest := compileAlt_congr ts (fun u hu => h u (List.mem_cons_of_mem t hu)) flags
    rw [compileAlt, compileAlt, compileWith_congr t (h t List.mem_cons_self)]
    simp only [hrest]

end

end

theorem patternSet_zero_ne (table : PatternTable) (name : String) (flags : Flags) (s : CharSet) :
    patternSet table 0 name flags ≠ .ok s := by
  intro h
  rw [patternSet] at h
  obtain ⟨_, -, h⟩ := bind_eq_ok.mp h
  cases h

theorem patternSet_succ (table : PatternTable) (depth : Nat) (name : String) (flags : Flags) :
    patternSet table (depth + 1) name flags
      = table.setOf (setWith (patternSet table depth)) name flags := by
  rw [patternSet, PatternTable.setOf]
  refine congrArg (table.find name).bind (funext fun p => ?_)
  cases setWith (patternSet table depth) flags p.regex.root <;> rfl

theorem expands_set (table : PatternTable) :
    Expands table setWith table.setOf (patternSet table) where
  eval_congr f g t h := setWith_congr t h
  put_congr v w name h := by
    funext flags
    unfold PatternTable.setOf
    cases hp : table.find name with
    | error cause => rfl
    | ok p => exact congrArg (Except.mapError _) (h p flags hp)
  zero v name h := by
    funext flags
    rw [patternSet, PatternTable.setOf]
    cases hp : table.find name with
    | error cause => rfl
    | ok p => exact absurd hp (h p)
  succ d name := funext (patternSet_succ table d name)

theorem expands_fragment (table : PatternTable) (limit : Nat) :
    Expands table (fun f => compileWith (resolveSet table) f limit) table.fragmentOf
      (compilePattern table limit) where
  eval_congr f g t h := compileWith_congr t h
  put_congr v w name h := by
    funext flags
    unfold PatternTable.fragmentOf
    cases hp : table.find name with
    | error cause => rfl
    | ok p => exact congrArg (EStateM.adaptExcept _) (h p flags hp)
  zero v name h := by
    funext flags
    rw [compilePattern, PatternTable.fragmentOf]
    cases hp : table.find name with
    | error cause => rfl
    | ok p => exact absurd hp (h p)
  succ d name := funext fun flags => by rw [compilePattern, PatternTable.fragmentOf]

/-! ## 6. Rules that need what cannot be used -/

theorem mapError_eq_ok {ε ε' α : Type} {f : ε → ε'} {x : Except ε α} {y : α} :
    x.mapError f = .ok y ↔ x = .ok y := by
  cases x <;> simp [Except.mapError]

/-- A tree that is read without a failure, as an expression or as a set. -/
inductive Succeeds (table : PatternTable) (limit : Nat) (t : Tree) : Prop
  | expr {depth : Nat} {flags : Flags} {e : Expr} : exprWith (resolveSet table)
      (patternExpr table limit depth) limit flags t = .ok e → Succeeds table limit t
  | set {depth : Nat} {flags : Flags} {s : CharSet} :
      setWith (patternSet table depth) flags t = .ok s → Succeeds table limit t

/-- What has to be read for a rule. -/
inductive RuleNeeds (table : PatternTable) (re : Regex) : Tree → Prop
  | body {body : List Tree} {ahead : Option (TextRange × Tree)} {t : Tree} :
      splitLookahead re.root = .ok (body, ahead) → t ∈ body → RuleNeeds table re t
  | lookahead {body : List Tree} {r : TextRange} {t : Tree} :
      splitLookahead re.root = .ok (body, some (r, t)) → RuleNeeds table re t
  | step {t u : Tree} : RuleNeeds table re t → Needs table t u → RuleNeeds table re u

section Failure

variable {table : PatternTable} {limit : Nat}

theorem exists_of_exprsWith {set : Flags → Tree → Except ResolveError CharSet}
    {pattern : String → Flags → Except Cause Expr} {flags : Flags} : ∀ {ts : List Tree}
    {es : List Expr}, exprsWith set pattern limit flags ts = .ok es →
      ∀ t ∈ ts, ∃ e, exprWith set pattern limit flags t = .ok e
  | [], _, _ => fun t ht => absurd ht List.not_mem_nil
  | u :: ts, es, h => by
    rw [exprsWith] at h
    obtain ⟨e, he, h⟩ := bind_eq_ok.mp h
    obtain ⟨rest, hrest, -⟩ := bind_eq_ok.mp h
    exact List.forall_mem_cons.mpr ⟨⟨e, he⟩, exists_of_exprsWith hrest⟩

theorem exists_of_unionWith {pattern : String → Flags → Except Cause CharSet} {flags : Flags} :
    ∀ {ts : List Tree} {s s' : CharSet}, unionWith pattern flags s ts = .ok s' →
      ∀ t ∈ ts, ∃ u, setWith pattern flags t = .ok u
  | [], _, _, _ => fun t ht => absurd ht List.not_mem_nil
  | t :: ts, s, s', h => by
    rw [unionWith] at h
    obtain ⟨u, hu, h⟩ := bind_eq_ok.mp h
    exact List.forall_mem_cons.mpr ⟨⟨u, hu⟩, exists_of_unionWith h⟩

/-- The operands of an operator on sets are sets. -/
theorem setWith_algebra_eq_ok {pattern : String → Flags → Except Cause CharSet} {flags : Flags}
    {r : TextRange} {op : SetOp} {left right : Tree} {s : CharSet} :
    setWith pattern flags (.algebra r op left right) = .ok s ↔ ∃ s₁ s₂,
      setWith pattern flags left = .ok s₁ ∧ setWith pattern flags right = .ok s₂ ∧
        s = combine op s₁ s₂ := by
  rw [setWith]
  constructor
  · intro h
    obtain ⟨s₁, h₁, h⟩ := bind_eq_ok.mp h
    obtain ⟨s₂, h₂, h⟩ := bind_eq_ok.mp h
    cases h
    exact ⟨s₁, s₂, h₁, h₂, rfl⟩
  · rintro ⟨s₁, s₂, h₁, h₂, rfl⟩
    rw [h₁, h₂]
    rfl

/-- A name whose expression is known is that of a pattern. -/
theorem exists_of_patternExpr : ∀ {depth : Nat} {name : String} {flags : Flags} {e : Expr},
    patternExpr table limit depth name flags = .ok e → ∃ d p, table.find name = .ok p ∧
      exprWith (resolveSet table) (patternExpr table limit d) limit flags p.regex.root = .ok e
  | 0, name, flags, e, h => by
    rw [patternExpr] at h
    obtain ⟨_, -, h⟩ := bind_eq_ok.mp h
    cases h
  | depth + 1, name, flags, e, h => by
    rw [patternExpr_succ] at h
    obtain ⟨p, hp, h⟩ := bind_eq_ok.mp h
    exact ⟨depth, p, hp, mapError_eq_ok.mp h⟩

/-- A name whose set is known is that of a pattern. -/
theorem exists_of_patternSet : ∀ {depth : Nat} {name : String} {flags : Flags} {s : CharSet},
    patternSet table depth name flags = .ok s → ∃ d p, table.find name = .ok p ∧
      setWith (patternSet table d) flags p.regex.root = .ok s
  | 0, name, flags, s, h => absurd h (patternSet_zero_ne table name flags s)
  | depth + 1, name, flags, s, h => by
    rw [patternSet_succ] at h
    obtain ⟨p, hp, h⟩ := bind_eq_ok.mp h
    exact ⟨depth, p, hp, mapError_eq_ok.mp h⟩

/-- A reference is read without a failure if its name is that of a pattern that is. -/
theorem Succeeds.find {r : TextRange} {name : String} (h : Succeeds table limit (.expand r name)) :
    ∃ p, table.find name = .ok p ∧ Succeeds table limit p.regex.root := by
  cases h with
  | expr h =>
    rw [exprWith] at h
    split at h
    · rename_i e he
      obtain ⟨d, p, hp, he⟩ := exists_of_patternExpr he
      exact ⟨p, hp, .expr he⟩
    · cases h
  | set h =>
    rw [setWith] at h
    split at h
    · rename_i s hs
      obtain ⟨d, p, hp, hs⟩ := exists_of_patternSet hs
      exact ⟨p, hp, .set hs⟩
    · cases h

/-- Both operands of an operator are read as sets, also where the whole is an expression. -/
theorem Succeeds.operands {r : TextRange} {op : SetOp} {left right : Tree}
    (h : Succeeds table limit (.algebra r op left right)) :
    Succeeds table limit left ∧ Succeeds table limit right := by
  obtain ⟨d, flags, s, hs⟩ : ∃ d flags s,
      setWith (patternSet table d) flags (.algebra r op left right) = .ok s := by
    cases h with
    | expr h =>
      rw [exprWith] at h
      obtain ⟨s, hs, -⟩ := bind_eq_ok.mp h
      exact ⟨_, _, s, hs⟩
    | set h => exact ⟨_, _, _, h⟩
  obtain ⟨s₁, s₂, h₁, h₂, -⟩ := setWith_algebra_eq_ok.mp hs
  exact ⟨.set h₁, .set h₂⟩

/-- **What is needed for something that is read without a failure is read without a failure.** -/
theorem Succeeds.needs {t u : Tree} (h : Succeeds table limit t) (hu : Needs table t u) :
    Succeeds table limit u := by
  cases hu with
  | seq hu =>
    cases h with
    | expr h =>
      rw [exprWith] at h
      obtain ⟨es, hes, -⟩ := bind_eq_ok.mp h
      obtain ⟨e, he⟩ := exists_of_exprsWith hes u hu
      exact .expr he
    | set h => rw [setWith] at h; cases h
  | alt hu =>
    cases h with
    | expr h =>
      rw [exprWith] at h
      obtain ⟨es, hes, -⟩ := bind_eq_ok.mp h
      obtain ⟨e, he⟩ := exists_of_exprsWith hes u hu
      exact .expr he
    | set h =>
      rw [setWith] at h
      obtain ⟨s, hs⟩ := exists_of_unionWith h u hu
      exact .set hs
  | group =>
    cases h with
    | expr h => rw [exprWith] at h; exact .expr h
    | set h => rw [setWith] at h; exact .set h
  | repeated hcopies =>
    cases h with
    | expr h =>
      rw [exprWith] at h
      split at h
      · cases h
      · rw [if_neg (by simpa using hcopies)] at h
        obtain ⟨e, he, -⟩ := bind_eq_ok.mp h
        exact .expr he
    | set h => rw [setWith] at h; cases h
  | left => exact h.operands.1
  | right => exact h.operands.2
  | expand hp =>
    obtain ⟨p, hp', hroot⟩ := h.find
    cases hp.symm.trans hp'
    exact hroot

/-- What is needed for a rule that resolves is read without a failure. -/
theorem RuleNeeds.succeeds {re : Regex} {e : RuleExpr} (h : resolveRule table limit re = .ok e)
    {t : Tree} (ht : RuleNeeds table re t) : Succeeds table limit t := by
  obtain ⟨body, ahead, hsplit, hbody, hahead⟩ := resolveRule_eq_ok h
  induction ht with
  | body hsplit' ht =>
    cases hsplit.symm.trans hsplit'
    obtain ⟨e, he⟩ := exists_of_exprsWith hbody _ ht
    exact .expr he
  | lookahead hsplit' =>
    cases hsplit.symm.trans hsplit'
    obtain ⟨s, hs, -⟩ := hahead
    exact .set hs
  | step _ hu ih => exact ih.needs hu

/-- **A rule is not compiled if it needs a pattern that cannot be used.** -/
theorem compileRule_of_needs {re : Regex} {r : TextRange} {name : String}
    (h : RuleNeeds table re (.expand r name)) (hname : name ∈ table.unusable) (a : Nfa) :
    ∃ e b, compileRule table limit re a = .error e b := by
  have hgives := gives_compileRule table limit re a
  cases hresolve : resolveRule table limit re with
  | ok e =>
    obtain ⟨p, hp, -⟩ := (h.succeeds hresolve).find
    exact absurd hname (PatternTable.find_eq_ok.mp hp).1
  | error e =>
    rw [hresolve] at hgives
    obtain ⟨b, hb, -⟩ := hgives
    exact ⟨e, b, hb⟩

end Failure

/-! ## 7. Expansion ends -/

/-- **Patterns that refer to themselves are found exactly, and expansion ends without them.**  When
they cannot be used, references that are followed form chains without a repetition, and what a tree
needs ends on every path.  Sets and fragments are then the one solution of the equations in which
names are expanded without a limit.  A rule that needs a pattern that refers to itself is not
compiled. -/
theorem expansion_ends {patterns : List NamedPattern} (hnames : (patterns.map (·.name)).Nodup) :
    ((cyclicPatterns patterns).Pairwise (· < ·) ∧
      ∀ i, i ∈ cyclicPatterns patterns ↔ Relation.TransGen (RefersTo patterns) i i) ∧
    (∀ g : Grammar, g.patterns.toList = patterns →
      (patternTable g).1.patterns = patterns ∧ (patternTable g).1.BarsCycles) ∧
    ∀ table : PatternTable, table.patterns = patterns → table.BarsCycles →
      (∀ names : List String, names.IsChain table.Opens →
        (∀ x ∈ names, ∃ p, table.find x = .ok p) →
          names.Nodup ∧ names.length ≤ patterns.length) ∧
      WellFounded (flip (Needs table)) ∧
      (∀ value, value = setWith (table.setOf value) ↔ value = resolveSet table) ∧
      (∀ limit value, (value = fun flags t =>
          compileWith (resolveSet table) (table.fragmentOf value) limit flags t) ↔
        value = compileTree table limit) ∧
      ∀ i ∈ cyclicPatterns patterns, ∀ p, patterns[i]? = some p → ∀ limit re r a,
        RuleNeeds table re (.expand r p.name) →
          ∃ e b, compileRule table limit re a = .error e b := by
  refine ⟨⟨pairwise_cyclicPatterns patterns, fun i => mem_cyclicPatterns hnames⟩, ?_, ?_⟩
  · rintro g rfl
    exact ⟨rfl, barsCycles_patternTable g⟩
  · rintro table rfl hbars
    have hdepth := depth_of_barsCycles hnames hbars
    refine ⟨fun names hchain hfound => ⟨nodup_of_chain hnames hbars hchain hfound,
      length_le_of_chain hnames hbars hchain hfound⟩, wellFounded_needs hnames hbars, ?_, ?_, ?_⟩
    · exact fun value => (expands_set table).solution_iff hdepth
    · exact fun limit value => (expands_fragment table limit).solution_iff hdepth
    · exact fun i hi p hp limit re r a hneeds => compileRule_of_needs hneeds (hbars i hi p hp) a

/-- Two patterns that refer to each other, one that leads to them, and one that refers to itself. -/
def loopingPatterns : List NamedPattern :=
  [{ name := "a", regex := (Regex.parse "x{b}" none).1 },
   { name := "b", regex := (Regex.parse "y{a}" none).1 },
   { name := "c", regex := (Regex.parse "{a}z" none).1 },
   { name := "d", regex := (Regex.parse "{d}|w" none).1 }]

/-- The pattern that leads to the others is not marked, and a rule with it is not compiled. -/
theorem expansion_ends_loopingPatterns :
    cyclicPatterns loopingPatterns = [0, 1, 3] ∧
    ¬ Relation.TransGen (RefersTo loopingPatterns) 2 2 ∧
    ∀ a, ∃ e b, compileRule ⟨loopingPatterns, ["a", "b", "d"]⟩ 1000 (Regex.parse "{c}" none).1 a
      = .error e b := by
  have hnames : (loopingPatterns.map (·.name)).Nodup := by decide +kernel
  have hcyclic : cyclicPatterns loopingPatterns = [0, 1, 3] := by decide +kernel
  have hbars : PatternTable.BarsCycles ⟨loopingPatterns, ["a", "b", "d"]⟩ := by
    intro i hi p hp
    rw [hcyclic] at hi
    simp only [List.mem_cons, List.not_mem_nil, or_false] at hi
    rcases hi with rfl | rfl | rfl <;> cases hp <;> decide
  obtain ⟨⟨-, hexact⟩, -, htable⟩ := expansion_ends hnames
  obtain ⟨-, -, -, -, hrejected⟩ := htable ⟨loopingPatterns, ["a", "b", "d"]⟩ rfl hbars
  refine ⟨hcyclic, ?_, fun a => ?_⟩
  · rw [← hexact, hcyclic]
    decide
  · -- the rule needs `{c}`, and the tree of `c` needs `{a}`
    have hroot : (Regex.parse "{c}" none).1.root = .expand ⟨0, 3⟩ "c" := by cbv
    have hrootc : (Regex.parse "{a}z" none).1.root
        = .seq ⟨0, 4⟩ [.expand ⟨0, 3⟩ "a", .char ⟨3, 4⟩ 0x7A] := by cbv
    have hsplit : splitLookahead (Regex.parse "{c}" none).1.root
        = .ok ([.expand ⟨0, 3⟩ "c"], none) := by
      rw [hroot]
      rfl
    have hrule : RuleNeeds ⟨loopingPatterns, ["a", "b", "d"]⟩ (Regex.parse "{c}" none).1
        (.expand ⟨0, 3⟩ "c") := .body hsplit List.mem_cons_self
    have hfind : PatternTable.find ⟨loopingPatterns, ["a", "b", "d"]⟩ "c"
        = .ok { name := "c", regex := (Regex.parse "{a}z" none).1 } := by rfl
    have hc := hrule.step (.expand hfind)
    simp only [hrootc] at hc
    exact hrejected 0 (by rw [hcyclic]; decide) _ rfl 1000 _ _ a (hc.step (.seq List.mem_cons_self))

end GrammarTables.Lexical
