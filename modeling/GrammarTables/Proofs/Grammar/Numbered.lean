import GrammarTables.Proofs.Grammar.Checked
/-
# The symbols of a frozen grammar

Freezing takes the symbols of a draft in a new order, terminals, nonterminals, layout, each group
as declared (`freeze_symbols`).  Symbol `i` of the draft is the symbol `place i` of the grammar
(`getElem?_place`), and the grammar has no others (`exists_place`).  So everything that refers to
symbol `i` in the draft refers to the same symbol in the grammar: the grammar is sorted
(`Draft.Reached.sorted`) and whatever its parts refer to is there and of the right kind
(`Draft.Reached.closed`).
-/

namespace GrammarTables

/-- The symbols in the order of the grammar, each group in the order of a list of
declarations. -/
def grouped {α : Type} (kind : α → SymbolKind) (l : List α) : List α :=
  l.filter (fun a => (kind a).isTerminal) ++ l.filter (fun a => kind a = .nonterminal)
    ++ l.filter (fun a => kind a = .layout)

theorem map_grouped {α β : Type} (kind : β → SymbolKind) (f : α → β) (l : List α) :
    (grouped (fun a => kind (f a)) l).map f = grouped kind (l.map f) := by
  simp [grouped, List.filter_map, Function.comp_def]

namespace Draft

/-! ## 1. The new order -/

theorem mem_order {d : Draft} {i : Nat} : i ∈ d.order ↔ i < d.symbols.size := by
  unfold order
  simp only [List.mem_append, mem_indicesWhere]
  constructor
  · rintro ((⟨s, hs, -⟩ | ⟨s, hs, -⟩) | ⟨s, hs, -⟩) <;>
      exact (Array.getElem?_eq_some_iff.mp hs).1
  · intro hlt
    have hs := Array.getElem?_eq_getElem hlt
    cases hkind : d.symbols[i].kind with
    | terminal | softTerminal => exact .inl (.inl ⟨_, hs, by rw [hkind]; rfl⟩)
    | nonterminal => exact .inl (.inr ⟨_, hs, by rw [hkind]; rfl⟩)
    | layout => exact .inr ⟨_, hs, by rw [hkind]; rfl⟩

theorem getElem?_order_place {d : Draft} {i : Nat} {s : Symbol} (h : d.symbols[i]? = some s) :
    d.order[d.place i]? = some i := by
  rw [place_eq (p := fun _ => True) ⟨s, h, trivial⟩]
  exact List.getElem?_idxOf (mem_order.mpr (Array.getElem?_eq_some_iff.mp h).1)

theorem nodup_order (d : Draft) : d.order.Nodup := by
  have hnodup : ∀ p, (d.indicesWhere p).Nodup := fun p => List.nodup_range.filter _
  -- an index has one kind
  have hdisjoint : ∀ {p q : SymbolKind → Bool}, (∀ k, p k = true → q k = true → False) →
      (d.indicesWhere p).Disjoint (d.indicesWhere q) := by
    intro p q hpq i hi hj
    obtain ⟨k, hk, hk'⟩ := (mem_indicesWhere.mp hi).unique (mem_indicesWhere.mp hj)
    exact hpq k hk hk'
  unfold order
  refine ((hnodup _).append (hnodup _) (hdisjoint ?_)).append (hnodup _) ?_
  · intro k; cases k <;> simp [SymbolKind.isTerminal]
  · refine List.disjoint_append_left.mpr ⟨hdisjoint ?_, hdisjoint ?_⟩
    · intro k; cases k <;> simp [SymbolKind.isTerminal]
    · intro k; cases k <;> simp

theorem place_of_order {d : Draft} {i j : Nat} (h : d.order[j]? = some i) : d.place i = j := by
  obtain ⟨hlt, hj⟩ := List.getElem?_eq_some_iff.mp h
  have hi : i < d.symbols.size := mem_order.mp (hj ▸ List.getElem_mem hlt)
  rw [place_eq (p := fun _ => True) ⟨_, Array.getElem?_eq_getElem hi, trivial⟩, ← hj]
  exact (nodup_order d).idxOf_getElem j hlt

/-! ## 2. Symbols change their places -/

/-- A symbol of a draft as the symbol of index `j` of the grammar. -/
def moved (d : Draft) (j : Nat) (s : Symbol) : Symbol :=
  { s with index := j, softClass := s.softClass.map d.place }

theorem getElem?_filterMap_of_isSome {α β : Type} {f : α → Option β} {l : List α}
    (h : ∀ a ∈ l, (f a).isSome) (j : Nat) : (l.filterMap f)[j]? = l[j]?.bind f := by
  induction l generalizing j with
  | nil => simp
  | cons a l ih =>
    obtain ⟨b, hb⟩ := Option.isSome_iff_exists.mp (h a List.mem_cons_self)
    rw [List.filterMap_cons_some hb]
    cases j with
    | zero => simp [hb]
    | succ j => simpa using ih (fun c hc => h c (List.mem_cons_of_mem a hc)) j

theorem getElem?_freeze (d : Draft) (j : Nat) :
    d.freeze.symbols[j]? = d.order[j]?.bind fun i => d.symbols[i]?.map (d.moved j) := by
  have hsymbols : d.freeze.symbols =
      (d.order.zipIdx.filterMap fun e => d.symbols[e.1]?.map (d.moved e.2)).toArray := rfl
  rw [hsymbols, List.getElem?_toArray, getElem?_filterMap_of_isSome]
  · cases hj : d.order[j]? <;> simp [List.getElem?_zipIdx, hj]
  · rintro ⟨i, k⟩ he
    have hi : i ∈ d.order := (List.mem_zipIdx' he).2 ▸ List.getElem_mem _
    simp [mem_order.mp hi]

theorem getElem?_place {d : Draft} {i : Nat} {s : Symbol} (h : d.symbols[i]? = some s) :
    d.freeze.symbols[d.place i]? = some (d.moved (d.place i) s) := by
  rw [getElem?_freeze, getElem?_order_place h]
  simp [h]

/-- Every symbol of the grammar is one of the draft. -/
theorem exists_place {d : Draft} {j : Nat} {t : Symbol} (h : d.freeze.symbols[j]? = some t) :
    ∃ i s, d.symbols[i]? = some s ∧ d.place i = j ∧ t = d.moved j s := by
  rw [getElem?_freeze] at h
  obtain ⟨i, hi, h⟩ := Option.bind_eq_some_iff.mp h
  obtain ⟨s, hs, rfl⟩ := Option.map_eq_some_iff.mp h
  exact ⟨i, s, hs, place_of_order hi, rfl⟩

theorem place_injective {d : Draft} {i j : Nat} {s t : Symbol} (hi : d.symbols[i]? = some s)
    (hj : d.symbols[j]? = some t) (h : d.place i = d.place j) : i = j := by
  have hi' := getElem?_order_place hi
  rw [h, getElem?_order_place hj] at hi'
  exact (Option.some.inj hi').symm

theorem place_layout {d : Draft} {i : Nat} (h : d.HasKind (· = .layout) i) :
    d.freeze.grammarSymbols ≤ d.place i := by
  have hnot : i ∉ d.indicesWhere SymbolKind.isTerminal ++ d.indicesWhere (· = .nonterminal) := by
    rw [List.mem_append, not_or]
    constructor
    · intro hi
      obtain ⟨k, hk, rfl⟩ := (mem_indicesWhere.mp hi).unique h
      cases hk
    · intro hi
      obtain ⟨k, hk, rfl⟩ := (mem_indicesWhere.mp hi).unique h
      simp at hk
  rw [place_eq h, order, List.idxOf_append_of_notMem hnot, grammarSymbols_freeze,
    List.length_append]
  omega

/-- The end of the input is the first symbol of the grammar. -/
theorem place_zero {d : Draft} (hd : d.Sound) : d.place 0 = 0 := by
  obtain ⟨s, hs, hkind⟩ := hd.eoi
  have hlt := (place_terminal ⟨s, hs, by rw [hkind]; rfl⟩).2
  have hsize : 0 < d.freeze.symbols.size :=
    Nat.zero_lt_of_lt (Array.getElem?_eq_some_iff.mp (getElem?_place hs)).1
  obtain ⟨i, t, ht, hplace, -⟩ := exists_place (Array.getElem?_eq_getElem hsize)
  by_cases hi : i = 0
  · rw [← hi, hplace, hi]
  · -- the symbol at place 0 is a terminal, and only the end of the input goes there
    have hrule : d.HasKind IsRuleKind i := by
      refine ⟨t, ht, fun hlayout => ?_⟩
      have hge := place_layout ⟨t, ht, hlayout⟩
      rw [hplace, grammarSymbols_freeze, ← terminals_freeze] at hge
      omega
    exact absurd hplace (place_ne_zero hd hrule hi)

theorem place_pos {d : Draft} (hd : d.Sound) {i : Nat} {s : Symbol} (h : d.symbols[i]? = some s)
    (hi : i ≠ 0) : d.place i ≠ 0 := by
  obtain ⟨t, ht, -⟩ := hd.eoi
  intro hzero
  exact hi (place_injective h ht (hzero.trans (place_zero hd).symm))

/-! ## 3. Groups in the order of declaration -/

theorem filterMap_getElem?_range {α : Type} (l : List α) :
    (List.range l.length).filterMap (l[·]?) = l := by
  refine List.ext_getElem? fun j => ?_
  rw [getElem?_filterMap_of_isSome (by simp)]
  by_cases hj : j < l.length
  · simp [hj]
  · simp [hj]

theorem filterMap_indicesWhere (d : Draft) (p : SymbolKind → Bool) :
    (d.indicesWhere p).filterMap (d.symbols[·]?) = d.symbols.toList.filter (p ·.kind) := by
  have hrange : (List.range d.symbols.size).filterMap (d.symbols[·]?) = d.symbols.toList := by
    simpa using filterMap_getElem?_range d.symbols.toList
  rw [← hrange, List.filter_filterMap, indicesWhere, List.filterMap_filter]
  refine List.filterMap_congr fun i _ => ?_
  cases d.symbols[i]? with
  | none => simp
  | some s => cases hp : p s.kind <;> simp [hp, Option.filter]

/-- **Freezing sorts the symbols into groups and keeps the order within each group.** -/
theorem freeze_symbols {α : Type} (d : Draft) (f : Symbol → α)
    (hf : ∀ s j, f (d.moved j s) = f s) :
    d.freeze.symbols.toList.map f = (grouped (·.kind) d.symbols.toList).map f := by
  have hsymbols : d.freeze.symbols.toList =
      d.order.zipIdx.filterMap fun e => d.symbols[e.1]?.map (d.moved e.2) := rfl
  have hmap : d.freeze.symbols.toList.map f =
      (d.order.zipIdx.map Prod.fst).filterMap (fun i => d.symbols[i]?.map f) := by
    rw [hsymbols, List.map_filterMap, List.filterMap_map]
    refine List.filterMap_congr fun e _ => ?_
    cases hs : d.symbols[e.1]? <;> simp [hs, hf]
  rw [hmap, List.zipIdx_map_fst, ← List.map_filterMap, order, List.filterMap_append,
    List.filterMap_append, filterMap_indicesWhere, filterMap_indicesWhere, filterMap_indicesWhere,
    grouped]

theorem grouped_perm {α : Type} (kind : α → SymbolKind) (l : List α) :
    (grouped kind l).Perm l := by
  induction l with
  | nil => exact .nil
  | cons a l ih =>
    unfold grouped at ih ⊢
    cases hkind : kind a with
    | terminal | softTerminal =>
      simp only [List.filter_cons, hkind, SymbolKind.isTerminal]
      exact ih.cons a
    | nonterminal =>
      simp only [List.filter_cons, hkind, SymbolKind.isTerminal, List.append_assoc]
      exact List.perm_middle.trans ((List.append_assoc .. ▸ ih).cons a)
    | layout =>
      simp only [List.filter_cons, hkind, SymbolKind.isTerminal]
      exact List.perm_middle.trans (ih.cons a)

end Draft

namespace Grammar

/-! ## 4. Sorted grammars -/

/-- The symbols of a grammar are numbered by their places, have different names, and stand in the
order terminals, nonterminals, layout, the end of the input first. -/
structure Sorted (g : Grammar) : Prop where
  index : ∀ (i : Nat) s, g.symbols[i]? = some s → s.index = i
  names : (g.symbols.toList.map (·.name)).Nodup
  eoi : ∃ s, g.symbols[g.eoi]? = some s ∧ s.name = eoiName ∧ s.kind = .terminal
  terminals : ∀ (i : Nat) s, g.symbols[i]? = some s → (i < g.terminals ↔ s.kind.isTerminal = true)
  nonterminals : ∀ (i : Nat) s, g.symbols[i]? = some s →
    (g.terminals ≤ i ∧ i < g.grammarSymbols ↔ s.kind = .nonterminal)
  layout : ∀ (i : Nat) s, g.symbols[i]? = some s → (g.grammarSymbols ≤ i ↔ s.kind = .layout)
  bounds : 0 < g.terminals ∧ g.terminals ≤ g.grammarSymbols ∧ g.grammarSymbols ≤ g.symbols.size

end Grammar

namespace Draft

/-- The places of the three groups of kinds. -/
theorem ranges_freeze {d : Draft} {j : Nat} {t : Symbol} (h : d.freeze.symbols[j]? = some t) :
    (j < d.freeze.terminals ↔ t.kind.isTerminal = true) ∧
    (d.freeze.terminals ≤ j ∧ j < d.freeze.grammarSymbols ↔ t.kind = .nonterminal) ∧
    (d.freeze.grammarSymbols ≤ j ↔ t.kind = .layout) := by
  obtain ⟨i, s, hs, rfl, rfl⟩ := exists_place h
  have hkind : (d.moved (d.place i) s).kind = s.kind := rfl
  have hle : d.freeze.terminals ≤ d.freeze.grammarSymbols := by
    rw [terminals_freeze, grammarSymbols_freeze]
    omega
  rw [hkind]
  cases hk : s.kind with
  | terminal | softTerminal =>
    have hlt := (place_terminal ⟨s, hs, by rw [hk]; rfl⟩).2
    simp only [SymbolKind.isTerminal, reduceCtorEq, iff_true, iff_false]
    omega
  | nonterminal =>
    have hrange := place_nonterminal ⟨s, hs, hk⟩
    simp only [SymbolKind.isTerminal, reduceCtorEq, Bool.false_eq_true, iff_true, iff_false]
    omega
  | layout =>
    have hge := place_layout ⟨s, hs, hk⟩
    simp only [SymbolKind.isTerminal, reduceCtorEq, Bool.false_eq_true, iff_true, iff_false]
    omega

theorem size_freeze (d : Draft) : d.freeze.symbols.size =
    d.freeze.grammarSymbols + (d.indicesWhere (· = .layout)).length := by
  have hall := countP_symbols d (fun _ => true)
  simp only [Array.countP_true, Bool.and_true] at hall
  rw [hall, grammarSymbols_freeze]

/-- **The symbols of a frozen grammar are sorted.** -/
theorem Reached.sorted {d : Draft} (h : d.Reached) : d.freeze.Sorted where
  index j t ht := by
    obtain ⟨i, s, -, -, rfl⟩ := exists_place ht
    rfl
  names := by
    rw [freeze_symbols d (·.name) fun _ _ => rfl]
    exact ((grouped_perm _ _).map _).nodup_iff.mpr h.checked.names
  eoi := by
    obtain ⟨s, hs, hname, hkind⟩ := h.checked.eoi
    have hplace := getElem?_place hs
    rw [place_zero h.sound] at hplace
    exact ⟨_, hplace, hname, hkind⟩
  terminals j t ht := (ranges_freeze ht).1
  nonterminals j t ht := (ranges_freeze ht).2.1
  layout j t ht := (ranges_freeze ht).2.2
  bounds := by
    obtain ⟨s, hs, hkind⟩ := h.sound.eoi
    have hpos := (place_terminal ⟨s, hs, by rw [hkind]; rfl⟩).2
    rw [size_freeze, grammarSymbols_freeze, ← terminals_freeze]
    omega

end Draft

namespace Grammar

/-! ## 5. What parts refer to -/

/-- The index names a symbol whose kind satisfies `p`. -/
def HasKind (g : Grammar) (p : SymbolKind → Prop) (i : Nat) : Prop :=
  ∃ s, g.symbols[i]? = some s ∧ p s.kind

/-- A lexical rule, the one of index `n`, is active in lexer states that exist, ascending and at
least one, produces a symbol that fits its kind, and refines at most an earlier class rule. -/
structure LexicalSound (g : Grammar) (n : Nat) (r : LexicalRule) : Prop where
  ascending : r.states.Pairwise (· < ·)
  nonempty : r.states ≠ []
  states : ∀ i ∈ r.states, i < g.states.size
  soft : r.kind = .soft → g.HasKind (· = .softTerminal) r.symbol
  plain : r.kind ≠ .soft →
    g.HasKind (fun k => k = .terminal ∨ k = .layout) r.symbol ∧ r.symbol ≠ g.eoi
  classRule : ∀ i ∈ r.classRule, i < n ∧
    ∃ q, g.lexicalRules[i]? = some q ∧ q.kind = .wordClass

/-- Whatever a part of a grammar refers to is there and of a kind that the part may refer to. -/
structure Closed (g : Grammar) : Prop where
  softClass : ∀ s ∈ g.symbols, s.kind = .softTerminal → ∃ i c, s.softClass = some i ∧
    g.symbols[i]? = some c ∧ i ≠ g.eoi ∧ c.kind = .terminal ∧ s.typeTag = c.typeTag
  noClass : ∀ s ∈ g.symbols, s.kind ≠ .softTerminal → s.softClass = none
  left : ∀ r ∈ g.ruleList, g.HasKind (· = .nonterminal) r.left
  right : ∀ r ∈ g.ruleList, ∀ x ∈ r.right, x.target ≠ g.eoi ∧
    g.HasKind (fun k => k.isTerminal = true ∨ k = .nonterminal) x.target
  precedence : ∀ r ∈ g.ruleList, ∀ i ∈ r.precedence, g.HasKind (·.isTerminal = true) i
  priorities : ∀ p ∈ g.priorityList, ∀ i ∈ p.symbols, g.HasKind (·.isTerminal = true) i
  inputs : ∀ i ∈ g.inputList, g.HasKind (· = .nonterminal) i.target
  lexicalRules : ∀ (n : Nat) r, g.lexicalRules[n]? = some r → g.LexicalSound n r

end Grammar

namespace Draft

theorem HasKind.freeze {d : Draft} {p : SymbolKind → Prop} {i : Nat} (h : d.HasKind p i) :
    d.freeze.HasKind p (d.place i) := by
  obtain ⟨s, hs, hp⟩ := h
  exact ⟨_, getElem?_place hs, hp⟩

theorem mem_priorities_freeze {d : Draft} {p : Priority} (h : p ∈ d.freeze.priorityList) :
    ∃ q ∈ d.priorities, p = { q with symbols := q.symbols.map d.place } := by
  simp only [Grammar.priorityList, Draft.freeze] at h
  split at h
  · simp only [Option.getD_some, Array.toList_map, List.mem_map, Array.mem_toList_iff] at h
    obtain ⟨q, hq, rfl⟩ := h
    exact ⟨q, hq, rfl⟩
  · simp at h

theorem getElem?_lexicalRules_freeze (d : Draft) (n : Nat) :
    d.freeze.lexicalRules[n]? =
      d.lexicalRules[n]?.map fun r => { r with symbol := d.place r.symbol } := by
  simp only [Draft.freeze, Array.getElem?_map]
  rfl

theorem LexicalSound.freeze {d : Draft} (hd : d.Sound) {n : Nat} {r : LexicalRule}
    (h : d.LexicalSound n r) :
    d.freeze.LexicalSound n { r with symbol := d.place r.symbol } where
  ascending := h.ascending
  nonempty := h.nonempty
  states := h.states
  soft hkind := by
    have hsym := h.symbol
    simp only at hkind
    rw [hkind] at hsym
    exact HasKind.freeze hsym
  plain hkind := by
    have hsym := h.symbol
    unfold Produces at hsym
    split at hsym
    · contradiction
    all_goals
      obtain ⟨s, hs, hs'⟩ := hsym.1
      exact ⟨HasKind.freeze hsym.1, place_pos hd hs hsym.2⟩
  classRule i hi := by
    obtain ⟨hlt, q, hq, hkind⟩ := h.classRule i hi
    refine ⟨hlt, { q with symbol := d.place q.symbol }, ?_, hkind⟩
    rw [getElem?_lexicalRules_freeze, hq]
    rfl

theorem Refines.freeze {d : Draft} (hd : d.Sound) {s : Symbol} (h : d.Refines s) (j : Nat) :
    (s.kind = .softTerminal → ∃ i c, (d.moved j s).softClass = some i ∧
      d.freeze.symbols[i]? = some c ∧ i ≠ 0 ∧ c.kind = .terminal ∧ s.typeTag = c.typeTag) ∧
    (s.kind ≠ .softTerminal → (d.moved j s).softClass = none) := by
  unfold Refines at h
  split at h
  · rename_i hkind
    obtain ⟨i, c, hi, hne, hc, hterm, htype⟩ := h
    refine ⟨fun _ => ⟨d.place i, _, ?_, getElem?_place hc, place_pos hd hc hne, hterm, htype⟩,
      fun hno => absurd hkind hno⟩
    simp [moved, hi]
  · rename_i hkind
    refine ⟨fun hk => absurd hk hkind, fun _ => ?_⟩
    simp [moved, h]

/-- **Freezing changes every reference together with what it refers to.** -/
theorem Reached.closed {d : Draft} (h : d.Reached) : d.freeze.Closed where
  softClass t ht hkind := by
    obtain ⟨j, hj⟩ := Array.mem_iff_getElem?.mp ht
    obtain ⟨i, s, hs, -, rfl⟩ := exists_place hj
    exact ((h.checked.refines s (Array.mem_of_getElem? hs)).freeze h.sound j).1 hkind
  noClass t ht hkind := by
    obtain ⟨j, hj⟩ := Array.mem_iff_getElem?.mp ht
    obtain ⟨i, s, hs, -, rfl⟩ := exists_place hj
    exact ((h.checked.refines s (Array.mem_of_getElem? hs)).freeze h.sound j).2 hkind
  left r hr := by
    obtain ⟨q, hq, rfl⟩ := mem_rules_freeze hr
    exact (h.sound.rules q hq).left.freeze
  right r hr x hx := by
    obtain ⟨q, hq, rfl⟩ := mem_rules_freeze hr
    obtain ⟨y, hy, rfl⟩ := List.mem_map.mp hx
    obtain ⟨⟨s, hs, hkind⟩, hne⟩ := (h.sound.rules q hq).right y hy
    refine ⟨place_pos h.sound hs hne, _, getElem?_place hs, ?_⟩
    cases hk : s.kind with
    | terminal | softTerminal => exact .inl (by simp [moved, hk, SymbolKind.isTerminal])
    | nonterminal => exact .inr hk
    | layout => exact absurd hk hkind
  precedence r hr i hi := by
    obtain ⟨q, hq, rfl⟩ := mem_rules_freeze hr
    obtain ⟨k, hk, rfl⟩ := Option.map_eq_some_iff.mp hi
    exact (h.checked.precedence q hq k hk).freeze
  priorities p hp i hi := by
    obtain ⟨q, hq, rfl⟩ := mem_priorities_freeze hp
    obtain ⟨k, hk, rfl⟩ := List.mem_map.mp hi
    exact (h.checked.priorities q hq k hk).freeze
  inputs i hi := by
    obtain ⟨q, hq, rfl⟩ := mem_inputs_freeze hi
    exact (h.sound.inputs q hq).freeze
  lexicalRules n r hr := by
    rw [getElem?_lexicalRules_freeze] at hr
    obtain ⟨q, hq, rfl⟩ := Option.map_eq_some_iff.mp hr
    exact (h.checked.lexicalRules hq).freeze h.sound

/-! ## 6. Handles -/

/-- A handle leads to a symbol if it has the stamp of the draft and counts one of its symbols. -/
theorem indexOf?_freeze (d : Draft) (h : Handle .symbol) :
    d.freeze.indexOf? h =
      if h.draft = d.stamp ∧ h.index < d.symbols.size then some (d.place h.index) else none := by
  have hdraft : d.freeze.draft = d.stamp := rfl
  have hpositions : d.freeze.positions[h.index]? =
      if h.index < d.symbols.size then some (d.place h.index) else none := by
    by_cases hlt : h.index < d.symbols.size
    · have hsize : h.index < d.freeze.positions.size := by simpa [Draft.freeze] using hlt
      rw [if_pos hlt, Array.getElem?_eq_getElem hsize, place, Array.getD, dif_pos hsize]
      rfl
    · rw [if_neg hlt]
      simpa [Draft.freeze] using hlt
  rw [Grammar.indexOf?, hdraft, hpositions]
  by_cases hstamp : h.draft = d.stamp <;> simp [hstamp]

end Draft

end GrammarTables
