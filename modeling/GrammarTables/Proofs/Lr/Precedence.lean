import GrammarTables.Lr.Build
/-
# Levels of precedence

The declarations of priorities are levels, the lowest first.  A terminal has the level of the last
declaration that lists it and associates as that declaration says (`terminalPrecedence_iff`); for a
terminal that is listed once, this is the declaration that lists it (`terminalPrecedence_of_listed`).
The precedence of a rule is that of one of its terminals (`rulePrecedence_iff`).

Of two operators in a row, `p` and then `q`, either the first is grouped first and belongs to the
left operand of the second (`Grammar.GroupsLeft`), or the second is and belongs to the right operand
of the first (`Grammar.GroupsRight`).  This is how the conflict between reducing the first and
shifting the second is settled (`resolve_cases`).
-/

namespace GrammarTables

/-! ## 1. Levels -/

namespace Grammar

/-- The level of a terminal: the number of declarations below the one that lists it. -/
def level (g : Grammar) (x : Nat) : Nat := g.priorityList.findIdx fun d => x ∈ d.symbols

/-- How the terminals of the level of a terminal associate. -/
def assoc? (g : Grammar) (x : Nat) : Option Assoc := g.priorityList[g.level x]?.map (·.assoc)

/-- The declarations list a terminal exactly once. -/
def ListedOnce (g : Grammar) (x : Nat) : Prop := (g.priorityList.flatMap (·.symbols)).count x = 1

instance (g : Grammar) (x : Nat) : Decidable (g.ListedOnce x) := inferInstanceAs (Decidable (_ = _))

/-- **The left operand of an operator** `p` may have the operator `q`: it binds tighter, or it has
the same level and operators of that level are not grouped to the right. -/
def GroupsLeft (g : Grammar) (p q : Nat) : Prop :=
  g.level p < g.level q ∨
    g.level q = g.level p ∧ (g.assoc? p = some .left ∨ g.assoc? p = some .nonAssoc)

/-- **The right operand of an operator** `p` may have the operator `q`: it binds tighter, or it has
the same level and operators of that level are grouped to the right. -/
def GroupsRight (g : Grammar) (p q : Nat) : Prop :=
  g.level p < g.level q ∨ g.level q = g.level p ∧ g.assoc? p = some .right

/-- **The precedence that is declared for a terminal**: that of the last declaration that lists it,
whose level is one above the number of declarations below. -/
def Declares (g : Grammar) (x : Nat) (v : Lr.Precedence) : Prop :=
  x < g.terminals ∧ ∃ below d above, g.priorityList = below ++ d :: above ∧ x ∈ d.symbols ∧
    (∀ d' ∈ above, x ∉ d'.symbols) ∧ v = ⟨below.length + 1, d.assoc⟩

/-- **The precedence that is declared for a rule**: that of the terminal given with the rule, or of
the last terminal of its right side. -/
def DeclaresRule (g : Grammar) (rule : Nat) (v : Lr.Precedence) : Prop :=
  ∃ r x, g.ruleList[rule]? = some r ∧ Lr.precedenceTerminal g.terminals r = some x ∧ g.Declares x v

theorem assoc?_congr {g : Grammar} {p q : Nat} (h : g.level p = g.level q) :
    g.assoc? p = g.assoc? q := by
  rw [assoc?, assoc?, h]

end Grammar

namespace Lr

/-! ## 2. The table of precedences -/

section Table

variable {x : Nat} (table : Array (Option Precedence))

/-- Gives some terminals a precedence. -/
def assign (v : Precedence) (table : Array (Option Precedence)) (ts : List Nat) :
    Array (Option Precedence) :=
  ts.foldl (fun table t => table.setIfInBounds t (some v)) table

/-- Gives the terminals of some declarations, the first one with number `k`, their precedences. -/
def declare (k : Nat) (table : Array (Option Precedence)) (ds : List Priority) :
    Array (Option Precedence) :=
  (ds.zipIdx k).foldl (fun table (d, i) => assign ⟨i + 1, d.assoc⟩ table d.symbols) table

theorem declare_cons (k : Nat) (d : Priority) (ds : List Priority) :
    declare k table (d :: ds) = declare (k + 1) (assign ⟨k + 1, d.assoc⟩ table d.symbols) ds :=
  rfl

theorem declare_append (k : Nat) (ds ds' : List Priority) :
    declare k table (ds ++ ds') = declare (k + ds.length) (declare k table ds) ds' := by
  rw [declare, List.zipIdx_append, List.foldl_append]
  rfl

theorem size_assign (v : Precedence) (ts : List Nat) : (assign v table ts).size = table.size := by
  induction ts generalizing table with
  | nil => rfl
  | cons t ts ih => exact (ih _).trans Array.size_setIfInBounds

theorem getElem?_assign (v : Precedence) (ts : List Nat) (hx : x < table.size) :
    (assign v table ts)[x]? = if x ∈ ts then some (some v) else table[x]? := by
  induction ts generalizing table with
  | nil => rfl
  | cons t ts ih =>
    have hrest := ih (table.setIfInBounds t (some v)) (by simpa using hx)
    rw [Array.getElem?_setIfInBounds] at hrest
    refine hrest.trans ?_
    by_cases ht : t = x
    · simp [ht, hx]
    · simp [ht, Ne.symm ht]

theorem size_declare (k : Nat) (ds : List Priority) : (declare k table ds).size = table.size := by
  induction ds generalizing k table with
  | nil => rfl
  | cons d ds ih => rw [declare_cons, ih, size_assign]

/-- A terminal that is not listed keeps what it has. -/
theorem getElem?_declare_of_not_mem (k : Nat) {ds : List Priority}
    (h : x ∉ ds.flatMap (·.symbols)) (hx : x < table.size) :
    (declare k table ds)[x]? = table[x]? := by
  induction ds generalizing k table with
  | nil => rfl
  | cons d ds ih =>
    rw [List.flatMap_cons, List.mem_append, not_or] at h
    rw [declare_cons, ih _ (k + 1) h.2 (by rwa [size_assign]), getElem?_assign _ _ _ hx,
      if_neg h.1]

/-- Of the declarations that list a terminal there is a last one. -/
theorem exists_last_listed {ds : List Priority} (h : x ∈ ds.flatMap (·.symbols)) :
    ∃ below d above, ds = below ++ d :: above ∧ x ∈ d.symbols ∧
      ∀ d' ∈ above, x ∉ d'.symbols := by
  induction ds with
  | nil => cases h
  | cons d ds ih =>
    by_cases hds : x ∈ ds.flatMap (·.symbols)
    · obtain ⟨below, d', above, rfl, hd', habove⟩ := ih hds
      exact ⟨d :: below, d', above, rfl, hd', habove⟩
    · rw [List.flatMap_cons, List.mem_append] at h
      exact ⟨[], d, ds, rfl, h.resolve_right hds,
        fun d' hd' hmem => hds (List.mem_flatMap.mpr ⟨d', hd', hmem⟩)⟩

/-- **A terminal has the precedence of the last declaration that lists it.** -/
theorem getElem?_declare_of_last (k : Nat) {below above : List Priority} {d : Priority}
    (hd : x ∈ d.symbols) (habove : ∀ d' ∈ above, x ∉ d'.symbols) (hx : x < table.size) :
    (declare k table (below ++ d :: above))[x]? =
      some (some ⟨k + below.length + 1, d.assoc⟩) := by
  have hrest : x ∉ above.flatMap (·.symbols) := by
    rw [List.mem_flatMap]
    exact fun ⟨d', hd', hmem⟩ => habove d' hd' hmem
  have hx' : x < (declare k table below).size := by rwa [size_declare]
  rw [declare_append, declare_cons,
    getElem?_declare_of_not_mem _ _ hrest (by rwa [size_assign]), getElem?_assign _ _ _ hx',
    if_pos hd]

/-- **A terminal that is listed once has the precedence of the declaration that lists it.** -/
theorem getElem?_declare (k : Nat) {ds : List Priority}
    (h : (ds.flatMap (·.symbols)).count x = 1) (hx : x < table.size) :
    ∃ d, ds[ds.findIdx fun d => x ∈ d.symbols]? = some d ∧ (declare k table ds)[x]? =
      some (some ⟨k + (ds.findIdx fun d => x ∈ d.symbols) + 1, d.assoc⟩) := by
  obtain ⟨below, d, above, rfl, hd, habove⟩ :=
    exists_last_listed (List.count_pos_iff.mp (by omega : 0 < (ds.flatMap (·.symbols)).count x))
  have hbelow : ∀ d' ∈ below, x ∉ d'.symbols := by
    intro d' hd' hmem
    have hpos := List.count_pos_iff.mpr hd
    have hpos' : 0 < (below.flatMap (·.symbols)).count x :=
      List.count_pos_iff.mpr (List.mem_flatMap.mpr ⟨d', hd', hmem⟩)
    rw [List.flatMap_append, List.flatMap_cons, List.count_append, List.count_append] at h
    omega
  have hlevel : (below ++ d :: above).findIdx (fun d => x ∈ d.symbols) = below.length := by
    rw [List.findIdx_append, List.findIdx_eq_length_of_false (by simpa using hbelow),
      if_neg (Nat.lt_irrefl _), List.findIdx_cons]
    simp [hd]
  rw [hlevel]
  exact ⟨d, by simp, getElem?_declare_of_last table k hd habove hx⟩

end Table

section Grammar

variable {g : Grammar} {p q : Nat}

theorem terminalPrecedences_eq (g : Grammar) :
    terminalPrecedences g = declare 0 (Array.replicate g.terminals none) g.priorityList :=
  rfl

theorem size_terminalPrecedences (g : Grammar) : (terminalPrecedences g).size = g.terminals := by
  rw [terminalPrecedences_eq, size_declare, Array.size_replicate]

/-- **The precedence of a terminal that is listed once.** -/
theorem terminalPrecedence_of_listed (h : g.ListedOnce q) (hq : q < g.terminals) :
    ∃ assoc, g.assoc? q = some assoc ∧ (∃ d ∈ g.priorityList, d.assoc = assoc) ∧
      (policyOf g).terminalPrecedence q = some ⟨g.level q + 1, assoc⟩ := by
  obtain ⟨d, hd, hget⟩ :=
    getElem?_declare (Array.replicate g.terminals none) 0 h (by rwa [Array.size_replicate])
  refine ⟨d.assoc, ?_, ⟨d, List.mem_of_getElem? hd, rfl⟩, ?_⟩
  · rw [Grammar.assoc?, Grammar.level, hd]
    rfl
  · rw [Nat.zero_add, ← terminalPrecedences_eq] at hget
    simp only [policyOf, Array.getD_eq_getD_getElem?, hget]
    rfl

theorem terminalPrecedence_eq_some {x : Nat} {v : Precedence} :
    (policyOf g).terminalPrecedence x = some v ↔ (terminalPrecedences g)[x]? = some (some v) := by
  simp only [policyOf, Array.getD_eq_getD_getElem?]
  cases (terminalPrecedences g)[x]? <;> simp

/-- **The precedence of a terminal is the one that is declared for it.** -/
theorem terminalPrecedence_iff {x : Nat} {v : Precedence} :
    (policyOf g).terminalPrecedence x = some v ↔ g.Declares x v := by
  have hlast : ∀ {below above : List Priority} {d : Priority},
      g.priorityList = below ++ d :: above → x ∈ d.symbols → (∀ d' ∈ above, x ∉ d'.symbols) →
      x < g.terminals →
      (policyOf g).terminalPrecedence x = some ⟨below.length + 1, d.assoc⟩ := by
    intro below above d hlist hd habove hx
    rw [terminalPrecedence_eq_some, terminalPrecedences_eq, hlist,
      getElem?_declare_of_last _ 0 hd habove (by rwa [Array.size_replicate]), Nat.zero_add]
  constructor
  · intro h
    have hget := terminalPrecedence_eq_some.mp h
    have hx : x < g.terminals :=
      size_terminalPrecedences g ▸ (Array.getElem?_eq_some_iff.mp hget).1
    by_cases hlisted : x ∈ g.priorityList.flatMap (·.symbols)
    · obtain ⟨below, d, above, hlist, hd, habove⟩ := exists_last_listed hlisted
      exact ⟨hx, below, d, above, hlist, hd, habove,
        Option.some.inj (h.symm.trans (hlast hlist hd habove hx))⟩
    · rw [terminalPrecedences_eq, getElem?_declare_of_not_mem _ 0 hlisted
        (by rwa [Array.size_replicate]), Array.getElem?_replicate, if_pos hx] at hget
      cases hget
  · rintro ⟨hx, below, d, above, hlist, hd, habove, rfl⟩
    exact hlast hlist hd habove hx

/-- **The precedence of a rule is the one that is declared for it.** -/
theorem rulePrecedence_iff {rule : Nat} {v : Precedence} :
    (policyOf g).rulePrecedence rule = some v ↔ g.DeclaresRule rule v := by
  have hrule : (policyOf g).rulePrecedence rule = g.ruleList[rule]?.bind fun r =>
      (precedenceTerminal g.terminals r).bind (policyOf g).terminalPrecedence := by
    simp only [policyOf, Array.getD_eq_getD_getElem?, List.getElem?_toArray, List.getElem?_map]
    cases g.ruleList[rule]? with
    | none => rfl
    | some r => simp [rulePrecedence, size_terminalPrecedences]
  simp only [hrule, Option.bind_eq_some_iff, terminalPrecedence_iff, Grammar.DeclaresRule,
    exists_and_left]

/-- The precedence of a rule is that of its last terminal. -/
theorem rulePrecedence_of_last {rule : Nat} {r : Rule} (hrule : g.ruleList[rule]? = some r)
    (hprecedence : r.precedence = none)
    (hlast : (r.right.map (·.target)).findRev? (· < g.terminals) = some p) :
    (policyOf g).rulePrecedence rule = (policyOf g).terminalPrecedence p := by
  have hr : rulePrecedence (terminalPrecedences g) r = (terminalPrecedences g).getD p none := by
    rw [rulePrecedence, precedenceTerminal, hprecedence, size_terminalPrecedences]
    simp only [hlast, Option.bind_some]
  simp only [policyOf]
  rw [← hr, Array.getD_eq_getD_getElem?, List.getElem?_toArray, List.getElem?_map, hrule]
  rfl

/-! ## 3. Settling conflicts between operators -/

/-- **How a conflict between two operators is settled**: `p` was read first, and `q` follows. -/
theorem resolve_cases (assocP : Assoc) {assocQ : Assoc} (hq : g.assoc? q = some assocQ) :
    let outcome := resolveShiftReduce (some ⟨g.level p + 1, assocP⟩) (some ⟨g.level q + 1, assocQ⟩)
    g.GroupsLeft q p ∧ (outcome = .reduce ∨ outcome = .nonAssoc ∧ assocQ = .nonAssoc) ∨
      g.GroupsRight p q ∧ outcome = .shift := by
  simp only [resolveShiftReduce, Nat.add_lt_add_iff_right]
  rcases Nat.lt_trichotomy (g.level q) (g.level p) with hlt | heq | hgt
  · exact Or.inl ⟨Or.inl hlt, Or.inl (if_pos hlt)⟩
  · have hassoc := Grammar.assoc?_congr heq
    rw [if_neg (by omega), if_neg (by omega)]
    cases assocQ with
    | left => exact Or.inl ⟨Or.inr ⟨heq.symm, Or.inl hq⟩, Or.inl rfl⟩
    | right => exact Or.inr ⟨Or.inr ⟨heq, hassoc ▸ hq⟩, rfl⟩
    | nonAssoc => exact Or.inl ⟨Or.inr ⟨heq.symm, Or.inr hq⟩, Or.inr ⟨rfl, rfl⟩⟩
  · rw [if_neg (by omega), if_pos hgt]
    exact Or.inr ⟨Or.inl hgt, rfl⟩

end Grammar

end Lr

end GrammarTables
