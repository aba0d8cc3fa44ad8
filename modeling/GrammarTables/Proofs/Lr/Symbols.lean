import GrammarTables.Proofs.Reachability
import GrammarTables.Proofs.Grammar.Numbered
import GrammarTables.Proofs.Lr.Conflicts
import GrammarTables.Proofs.Lr.Derivation
/-
# What is said about symbols

The checks of the symbols of a grammar are exact: a nonterminal is called undefined if it is the
left side of no rule, unreachable if it is in nothing that an input derives, and a terminal is
called unused if it is in no right side (`symbols_checked`).

The search for unreachable nonterminals follows the rules from a left side to the nonterminals of
the right side.  Its paths and derivations take the same steps (`leads_iff_derives`): a derivation
may replace other symbols meanwhile, which a path does not see.
-/

namespace GrammarTables

/-! ## 1. Kinds and names -/

namespace Grammar

variable {g : Grammar} {x : Nat}

theorem Frozen.sorted (h : g.Frozen) : g.Sorted := by
  obtain ⟨d, hd, rfl⟩ := h
  exact hd.sorted

theorem Sorted.nonterminal_iff (h : g.Sorted) :
    g.HasKind (· = .nonterminal) x ↔ g.terminals ≤ x ∧ x < g.grammarSymbols := by
  constructor
  · rintro ⟨s, hs, hkind⟩
    exact (h.nonterminals x s hs).mpr hkind
  · intro hx
    have hs := Array.getElem?_eq_getElem (Nat.lt_of_lt_of_le hx.2 h.bounds.2.2)
    exact ⟨_, hs, (h.nonterminals x _ hs).mp hx⟩

theorem Sorted.terminal_iff (h : g.Sorted) :
    g.HasKind (·.isTerminal = true) x ↔ x < g.terminals := by
  constructor
  · rintro ⟨s, hs, hkind⟩
    exact (h.terminals x s hs).mpr hkind
  · intro hx
    have hlt := Nat.lt_of_lt_of_le hx (Nat.le_trans h.bounds.2.1 h.bounds.2.2)
    have hs := Array.getElem?_eq_getElem hlt
    exact ⟨_, hs, (h.terminals x _ hs).mp hx⟩

/-- A place has a name if there is a symbol of that name. -/
theorem symbolName_eq {name : String} (hname : name ≠ "") :
    g.symbolName x = name ↔ ∃ s, g.symbols[x]? = some s ∧ s.name = name := by
  unfold symbolName
  cases g.symbols[x]? with
  | none => simpa using hname.symm
  | some s => simp

/-- The mark of errors is the symbol of that name. -/
theorem Frozen.error_eq_some (h : g.Frozen) : g.error = some x ↔ g.symbolName x = errorName := by
  have hnames := h.sorted.names
  have herror : g.error = g.symbols.findIdx? fun s => s.name == errorName := by
    obtain ⟨d, -, rfl⟩ := h
    rfl
  rw [herror, Array.findIdx?_eq_some_iff_getElem, symbolName_eq (by decide)]
  constructor
  · rintro ⟨hlt, hname, -⟩
    exact ⟨_, Array.getElem?_eq_getElem hlt, by simpa using hname⟩
  · rintro ⟨s, hs, hname⟩
    obtain ⟨hlt, rfl⟩ := Array.getElem?_eq_some_iff.mp hs
    refine ⟨hlt, by simpa using hname, fun j hj hj' => ?_⟩
    -- two symbols of one name stand at one place
    have hjlt : j < g.symbols.size := hj.trans hlt
    have hsame : (g.symbols.toList.map (·.name))[j]? = (g.symbols.toList.map (·.name))[x]? := by
      simpa [hname, hlt, hjlt] using hj'
    exact absurd ((List.getElem?_inj (by simpa using hjlt) hnames).mp hsame) (Nat.ne_of_lt hj)

end Grammar

namespace Lr

open Relation (ReflTransGen)
open GrammarTables.Graph (Leads)

/-! ## 2. What an input derives -/

section Derives

variable {g : Grammar} {x y : Nat}

theorem mem_usedBy : y ∈ usedBy g x ↔ g.terminals ≤ y ∧
    ∃ r ∈ g.ruleList, r.left = x ∧ ∃ s ∈ r.right, s.target = y := by
  simp only [usedBy, List.mem_flatMap, List.mem_filter, List.mem_map, decide_eq_true_eq]
  constructor
  · rintro ⟨r, ⟨hr, hleft⟩, hs, hy⟩
    exact ⟨hy, r, hr, hleft, hs⟩
  · rintro ⟨hy, r, hr, hleft, hs⟩
    exact ⟨r, ⟨hr, hleft⟩, hs, hy⟩

/-- The symbols on a path are derived, with other symbols around them. -/
theorem derives_of_leads (h : Leads g.grammarSymbols (usedBy g) x y) :
    ∃ v, g.Derives [x] v ∧ y ∈ v := by
  induction h with
  | refl => exact ⟨[x], .refl, List.mem_singleton_self x⟩
  | @tail y z _ hstep ih =>
    obtain ⟨v, hv, hy⟩ := ih
    obtain ⟨before, after, rfl⟩ := List.append_of_mem hy
    obtain ⟨-, r, hr, rfl, s, hs, rfl⟩ := mem_usedBy.mp hstep.1
    refine ⟨_, hv.tail (.rule before after hr), ?_⟩
    exact List.mem_append_right _ (List.mem_append_left _ (List.mem_map_of_mem hs))

/-- Nonterminals that are derived are on a path. -/
theorem leads_of_derives (hg : g.WellFormed) {v : List Nat} (h : g.Derives [x] v) :
    ∀ y ∈ v, g.terminals ≤ y → Leads g.grammarSymbols (usedBy g) x y := by
  induction h with
  | refl =>
    intro y hy _
    rw [List.mem_singleton.mp hy]
    exact .refl
  | tail _ hstep ih =>
    cases hstep with
    | @rule r before after hr =>
      intro y hy hle
      simp only [List.mem_append, List.mem_cons] at ih hy
      rcases hy with hy | hy | hy
      · exact ih y (.inl hy) hle
      · obtain ⟨s, hs, rfl⟩ := List.mem_map.mp hy
        have hleft := ih r.left (.inr (.inl rfl)) (hg.left r hr).1
        exact hleft.tail ⟨mem_usedBy.mpr ⟨hle, r, hr, rfl, s, hs, rfl⟩, (hg.right r hr s hs).2⟩
      · exact ih y (.inr (.inr hy)) hle

/-- **The search follows derivations**: there is a path to a nonterminal if and only if it is in
something that is derived. -/
theorem leads_iff_derives (hg : g.WellFormed) (hy : g.terminals ≤ y) :
    Leads g.grammarSymbols (usedBy g) x y ↔ ∃ v, g.Derives [x] v ∧ y ∈ v :=
  ⟨derives_of_leads, fun ⟨_, hv, hmem⟩ => leads_of_derives hg hv y hmem hy⟩

end Derives

/-! ## 3. The symbols that something is said about -/

section Symbols

variable {g : Grammar} {x : Nat}

theorem mem_nonterminalsOf (hg : g.Sorted) :
    x ∈ nonterminalsOf g ↔ g.HasKind (· = .nonterminal) x := by
  rw [hg.nonterminal_iff, nonterminalsOf, List.mem_map]
  simp only [List.mem_range, Grammar.nonterminals]
  constructor
  · rintro ⟨i, hi, rfl⟩
    omega
  · intro h
    exact ⟨x - g.terminals, by omega, by omega⟩

theorem pairwise_nonterminalsOf (g : Grammar) : (nonterminalsOf g).Pairwise (· < ·) :=
  List.pairwise_map.mpr (List.pairwise_lt_range.imp fun h => Nat.add_lt_add_left h _)

theorem mem_undefinedNonterminals (hg : g.Sorted) : x ∈ undefinedNonterminals g ↔
    g.HasKind (· = .nonterminal) x ∧ ∀ r ∈ g.ruleList, r.left ≠ x := by
  rw [undefinedNonterminals, List.mem_filter, mem_nonterminalsOf hg]
  simp

theorem mem_unreachableNonterminals (hg : g.Frozen) : x ∈ unreachableNonterminals g ↔
    g.HasKind (· = .nonterminal) x ∧
      ∀ i ∈ g.inputList, ∀ v, g.Derives [i.target] v → x ∉ v := by
  rw [unreachableNonterminals, List.mem_filter, mem_nonterminalsOf hg.sorted,
    Bool.not_eq_true', ← Bool.not_eq_true, ← Graph.marked_iff_getD, Graph.reach_iff]
  refine and_congr_right fun hx => ?_
  have hle := (hg.sorted.nonterminal_iff.mp hx).1
  constructor
  · intro h i hi v hv hmem
    exact h ⟨i.target, List.mem_map_of_mem hi, (hg.wellFormed.inputs i hi).2,
      (leads_iff_derives hg.wellFormed hle).mpr ⟨v, hv, hmem⟩⟩
  · rintro h ⟨target, hmem, -, hpath⟩
    obtain ⟨i, hi, rfl⟩ := List.mem_map.mp hmem
    obtain ⟨v, hv, hx⟩ := (leads_iff_derives hg.wellFormed hle).mp hpath
    exact h i hi v hv hx

theorem mem_unusedTerminals (hg : g.Frozen) : x ∈ unusedTerminals g ↔
    g.HasKind (·.isTerminal = true) x ∧ x ≠ g.eoi ∧ g.symbolName x ≠ errorName ∧
      ∀ r ∈ g.ruleList, ∀ s ∈ r.right, s.target ≠ x := by
  have herror : g.symbolName x ≠ errorName ↔ some x ≠ g.error := by
    rw [Ne, ← hg.error_eq_some, Ne, eq_comm]
  rw [unusedTerminals, List.mem_filter, List.mem_range, ← hg.sorted.terminal_iff, herror]
  simp [and_assoc]

end Symbols

/-! ## 4. What is said about them -/

/-- A finding about a symbol: what is said around its name, and where it was declared. -/
def symbolFinding (g : Grammar) (severity : Severity) (kind : Finding) (before after : String)
    (x : Nat) : Diagnostic :=
  { severity, kind, message := before ++ g.symbolName x ++ after
    anchors := (g.symbolOrigin x).toList }

/-- The finding for a nonterminal without rules. -/
def undefinedFinding (g : Grammar) : Nat → Diagnostic :=
  symbolFinding g .error .undefinedNonterminal "nonterminal `" "' has no rules"

/-- The finding for a nonterminal that no input reaches. -/
def unreachableFinding (g : Grammar) : Nat → Diagnostic :=
  symbolFinding g .warning .unreachableNonterminal "nonterminal `"
    "' is not reachable from any input"

/-- The finding for a terminal that no rule uses. -/
def unusedFinding (g : Grammar) : Nat → Diagnostic :=
  symbolFinding g .warning .unusedTerminal "terminal `" "' is not used in any rule"

/-- **The findings of a kind tell which symbols have a property**: one finding for each symbol, in
the order of the symbols. -/
def TellsWhich (ds : List Diagnostic) (kind : Finding) (finding : Nat → Diagnostic)
    (p : Nat → Prop) : Prop :=
  ∃ xs : List Nat, xs.Pairwise (· < ·) ∧ (∀ x, x ∈ xs ↔ p x) ∧
    findingsOf kind ds = xs.map finding

/-- Which symbols these are says what the findings are. -/
theorem TellsWhich.eq {ds : List Diagnostic} {kind : Finding} {finding : Nat → Diagnostic}
    {p : Nat → Prop} (h : TellsWhich ds kind finding p) (ys : List Nat)
    (hys : ys.Pairwise (· < ·)) (hmem : ∀ x, x ∈ ys ↔ p x) :
    findingsOf kind ds = ys.map finding := by
  obtain ⟨xs, hxs, hp, hfindings⟩ := h
  obtain rfl : xs = ys := hxs.eq_of_mem_iff hys fun {x} => (hp x).trans (hmem x).symm
  exact hfindings

section Findings

variable {g : Grammar} {options : ParseOptions} {t : ParseTable} {ds : List Diagnostic}

theorem findingsOf_map {kind kind' : Finding} (finding : Nat → Diagnostic)
    (h : ∀ x, (finding x).kind = kind') (xs : List Nat) :
    findingsOf kind (xs.map finding) = if kind' = kind then xs.map finding else [] := by
  split
  · rename_i heq
    exact findingsOf_eq_self (by simp [h, heq])
  · rename_i hne
    exact findingsOf_eq_nil (by simp [h, hne])

theorem findingsOf_symbolFindings (g : Grammar) (kind : Finding) :
    findingsOf kind (symbolFindings g) =
      (if .undefinedNonterminal = kind then
        (undefinedNonterminals g).map (undefinedFinding g) else []) ++
      (if .unreachableNonterminal = kind then
        (unreachableNonterminals g).map (unreachableFinding g) else []) ++
      (if .unusedTerminal = kind then (unusedTerminals g).map (unusedFinding g) else []) := by
  have hanchors : ∀ origin : Option Anchor, [origin].filterMap id = origin.toList := by
    rintro (_ | a) <;> rfl
  have heq : symbolFindings g = (undefinedNonterminals g).map (undefinedFinding g) ++
      (unreachableNonterminals g).map (unreachableFinding g) ++
      (unusedTerminals g).map (unusedFinding g) := by
    simp only [symbolFindings, Diagnostic.error, Diagnostic.warning, hanchors]
    rfl
  rw [heq, findingsOf_append, findingsOf_append,
    findingsOf_map (undefinedFinding g) (fun _ => rfl),
    findingsOf_map (unreachableFinding g) (fun _ => rfl),
    findingsOf_map (unusedFinding g) (fun _ => rfl)]

/-- What is said about symbols is said before, and apart from, what is said about conflicts. -/
theorem findingsOf_of_build (h : build g options = .ok (t, ds)) {kind : Finding}
    (hkind : kind ≠ .grammarConflict) :
    findingsOf kind ds = findingsOf kind (symbolFindings g) := by
  have hconflicts : findingsOf kind (conflictFindings g (.ofGrammar g) t.conflicts) = [] := by
    refine findingsOf_eq_nil fun d hd => ?_
    obtain ⟨key, -, rfl⟩ := List.mem_map.mp hd
    rw [kind_conflictFinding]
    exact hkind.symm
  rw [findings_of_build h, findingsOf_append, hconflicts, List.append_nil]

end Findings

/-! ## 5. The checks are exact -/

/-- **The checks of symbols are exact.**  A grammar with rules and inputs is built, and its findings
tell which nonterminals are the left side of no rule, which nonterminals are in nothing that an
input derives, and which terminals, other than the end of the input and the mark of errors, are in
no right side. -/
theorem symbols_checked {g : Grammar} (hg : g.Frozen) (hrules : g.ruleList ≠ [])
    (hinputs : g.inputList ≠ []) (options : ParseOptions) :
    ∃ t ds, build g options = .ok (t, ds) ∧
      TellsWhich ds .undefinedNonterminal (undefinedFinding g) (fun x =>
        g.HasKind (· = .nonterminal) x ∧ ∀ r ∈ g.ruleList, r.left ≠ x) ∧
      TellsWhich ds .unreachableNonterminal (unreachableFinding g) (fun x =>
        g.HasKind (· = .nonterminal) x ∧
          ∀ i ∈ g.inputList, ∀ v, g.Derives [i.target] v → x ∉ v) ∧
      TellsWhich ds .unusedTerminal (unusedFinding g) (fun x =>
        g.HasKind (·.isTerminal = true) x ∧ x ≠ g.eoi ∧ g.symbolName x ≠ errorName ∧
          ∀ r ∈ g.ruleList, ∀ s ∈ r.right, s.target ≠ x) := by
  have hsome : g.rules.isNone = false := by
    cases hr : g.rules with
    | none => exact absurd (by simp [Grammar.ruleList, hr]) hrules
    | some rules => rfl
  obtain ⟨t, ds, hbuild⟩ : ∃ t ds, build g options = .ok (t, ds) :=
    ⟨_, _, by rw [build, hsome, if_neg (by simp), if_neg (by simpa using hinputs)]⟩
  have hfindings : ∀ kind, kind ≠ .grammarConflict → findingsOf kind ds = _ := fun kind hkind =>
    (findingsOf_of_build hbuild hkind).trans (findingsOf_symbolFindings g kind)
  exact ⟨t, ds, hbuild,
    ⟨undefinedNonterminals g, (pairwise_nonterminalsOf g).filter _,
      fun x => mem_undefinedNonterminals hg.sorted, by simp [hfindings]⟩,
    ⟨unreachableNonterminals g, (pairwise_nonterminalsOf g).filter _,
      fun x => mem_unreachableNonterminals hg, by simp [hfindings]⟩,
    ⟨unusedTerminals g, List.pairwise_lt_range.filter _,
      fun x => mem_unusedTerminals hg, by simp [hfindings]⟩⟩

/-- A grammar with a nonterminal that nothing leads to, one without rules, and a terminal that is
not used, apart from the mark of errors. -/
def lostDraft : Draft :=
  { stamp := 0
    symbols := #[{ index := 0, name := eoiName, kind := .terminal },
      { index := 1, name := "x", kind := .terminal },
      { index := 2, name := "unused", kind := .terminal },
      { index := 3, name := errorName, kind := .terminal },
      { index := 4, name := "s", kind := .nonterminal },
      { index := 5, name := "lost", kind := .nonterminal },
      { index := 6, name := "undefined", kind := .nonterminal }]
    rules := #[{ left := 4, right := [{ target := 1 }] },
      { left := 5, right := [{ target := 6 }] }]
    inputs := #[{ target := 4, hasEoi := true }] }

theorem lostDraft_reached : lostDraft.Reached := by
  have hx : (Draft.new 0).addTerminal "x" none none
      = .ok (⟨0, 1⟩, { Draft.new 0 with symbols := lostDraft.symbols.take 2 }) := by
    with_unfolding_all rfl
  have hunused : { Draft.new 0 with symbols := lostDraft.symbols.take 2 }.addTerminal "unused" none
      none = .ok (⟨0, 2⟩, { Draft.new 0 with symbols := lostDraft.symbols.take 3 }) := by
    with_unfolding_all rfl
  have herror : { Draft.new 0 with symbols := lostDraft.symbols.take 3 }.addTerminal errorName none
      none = .ok (⟨0, 3⟩, { Draft.new 0 with symbols := lostDraft.symbols.take 4 }) := by
    with_unfolding_all rfl
  have hs : { Draft.new 0 with symbols := lostDraft.symbols.take 4 }.addNonterminal "s" none none
      = .ok (⟨0, 4⟩, { Draft.new 0 with symbols := lostDraft.symbols.take 5 }) := by
    with_unfolding_all rfl
  have hlost : { Draft.new 0 with symbols := lostDraft.symbols.take 5 }.addNonterminal "lost" none
      none = .ok (⟨0, 5⟩, { Draft.new 0 with symbols := lostDraft.symbols.take 6 }) := by
    with_unfolding_all rfl
  have hundefined : { Draft.new 0 with symbols := lostDraft.symbols.take 6 }.addNonterminal
      "undefined" none none = .ok (⟨0, 6⟩, { lostDraft with rules := #[], inputs := #[] }) := by
    with_unfolding_all rfl
  have hinput : { lostDraft with rules := #[], inputs := #[] }.addInput ⟨0, 4⟩ true none
      = .ok { lostDraft with rules := #[] } := rfl
  have hfirst : { lostDraft with rules := #[] }.addRule ⟨0, 4⟩ [⟨0, 1⟩]
      = .ok (0, { lostDraft with rules := lostDraft.rules.take 1 }) := rfl
  have hsecond : { lostDraft with rules := lostDraft.rules.take 1 }.addRule ⟨0, 5⟩ [⟨0, 6⟩]
      = .ok (1, lostDraft) := rfl
  have hterminals := (((Draft.Reached.new 0).terminal hx).terminal hunused).terminal herror
  have hsymbols := ((hterminals.nonterminal hs).nonterminal hlost).nonterminal hundefined
  exact ((hsymbols.input hinput).addRule hfirst).addRule hsecond

/-- What is said about that grammar. -/
theorem symbols_checked_lost : ∃ t ds, build lostDraft.freeze {} = .ok (t, ds) ∧
    findingsOf .undefinedNonterminal ds = [undefinedFinding lostDraft.freeze 6] ∧
    findingsOf .unreachableNonterminal ds = [unreachableFinding lostDraft.freeze 5,
      unreachableFinding lostDraft.freeze 6] ∧
    findingsOf .unusedTerminal ds = [unusedFinding lostDraft.freeze 2] := by
  have hfrozen : lostDraft.freeze.Frozen := ⟨lostDraft, lostDraft_reached, rfl⟩
  have hlists : undefinedNonterminals lostDraft.freeze = [6] ∧
      unreachableNonterminals lostDraft.freeze = [5, 6] ∧
      unusedTerminals lostDraft.freeze = [2] := by
    decide +kernel
  obtain ⟨t, ds, hbuild, hundefined, hunreachable, hunused⟩ :=
    symbols_checked hfrozen (by decide +kernel) (by decide +kernel) {}
  refine ⟨t, ds, hbuild, hundefined.eq [6] (by decide) fun x => ?_,
    hunreachable.eq [5, 6] (by decide) fun x => ?_,
    hunused.eq [2] (by decide) fun x => ?_⟩
  · exact hlists.1 ▸ mem_undefinedNonterminals hfrozen.sorted
  · exact hlists.2.1 ▸ mem_unreachableNonterminals hfrozen
  · exact hlists.2.2 ▸ mem_unusedTerminals hfrozen

end Lr

end GrammarTables
