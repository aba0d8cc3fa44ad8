import GrammarTables.Grammar.Draft
import GrammarTables.Proofs.Ordered
import GrammarTables.Proofs.Regex.Proper
/-
# Grammars that were written and frozen

A draft is reached from an empty one by declarations that were accepted, with any handles and any
declarations rejected in between (`Draft.Reached`).  A grammar is frozen if it comes from such a
draft.  Declarations check what they refer to, so in a frozen grammar every rule leads from a
nonterminal to terminals and nonterminals, the end of the input stands in no rule, and every
input is a nonterminal (`Grammar.Frozen.wellFormed`); and every regular expression was read from
a text (`Grammar.Frozen.fromText`).
-/

namespace GrammarTables

/-! ## 1. Checks one after the other -/

section Checks

variable {ε α β : Type}

theorem bind_eq_ok {x : Except ε α} {f : α → Except ε β} {b : β} :
    (x >>= f) = .ok b ↔ ∃ a, x = .ok a ∧ f a = .ok b := by
  cases x with
  | error e => simp [bind, Except.bind]
  | ok a => simp [bind, Except.bind]

theorem discard_eq_ok {x : Except ε α} {u : Unit} : discard x = .ok u ↔ ∃ a, x = .ok a := by
  cases x with
  | error e => simp [discard, Functor.mapConst, Except.map]
  | ok a => simp [discard, Functor.mapConst, Except.map]

end Checks

namespace Draft

/-! ## 2. Reached drafts -/

/-- A rule that was begun in a draft, with the symbols and the precedence it was given. -/
inductive Writing (d : Draft) : Rule → Prop
  | begin {label : Option String} {left : Handle .symbol} {origin : Option Anchor} {r : Rule} :
      d.beginRule label left origin = .ok r → Writing d r
  | append {r r' : Rule} {h : Handle .symbol} {label : Option String} {origin : Option Anchor} :
      Writing d r → d.appendSymbol r h label origin = .ok r' → Writing d r'
  | precedence {r r' : Rule} {h : Handle .symbol} :
      Writing d r → d.setPrecedence r h = .ok r' → Writing d r'

/-- A draft that accepted declarations lead to.  Handles may come from anywhere. -/
inductive Reached : Draft → Prop
  | new (stamp : Nat) : Reached (new stamp)
  | terminal {d d' : Draft} {name : String} {typeTag : Option String} {origin : Option Anchor}
      {h : Handle .symbol} :
      Reached d → d.addTerminal name typeTag origin = .ok (h, d') → Reached d'
  | nonterminal {d d' : Draft} {name : String} {typeTag : Option String} {origin : Option Anchor}
      {h : Handle .symbol} :
      Reached d → d.addNonterminal name typeTag origin = .ok (h, d') → Reached d'
  | layout {d d' : Draft} {name : String} {typeTag : Option String} {origin : Option Anchor}
      {h : Handle .symbol} : Reached d → d.addLayout name typeTag origin = .ok (h, d') → Reached d'
  | soft {d d' : Draft} {name : String} {softClass h : Handle .symbol} {origin : Option Anchor} :
      Reached d → d.addSoftTerminal name softClass origin = .ok (h, d') → Reached d'
  | pattern {d d' : Draft} {name : String} {regex : Regex} {origin : Option Anchor}
      {h : Handle .pattern} :
      Reached d → regex.FromText → d.addPattern name regex origin = .ok (h, d') → Reached d'
  | state {d d' : Draft} {name : String} {origin : Option Anchor} {h : Handle .lexerState} :
      Reached d → d.addState name origin = .ok (h, d') → Reached d'
  | lexicalRule {d d' : Draft} {kind : LexicalKind} {symbol : Handle .symbol} {regex : Regex}
      {states : List (Handle .lexerState)} {priority : Int}
      {classRule : Option (Handle .lexicalRule)} {origin : Option Anchor}
      {h : Handle .lexicalRule} : Reached d → regex.FromText →
      d.addLexicalRule kind symbol regex states priority classRule origin = .ok (h, d') → Reached d'
  | priority {d d' : Draft} {assoc : Assoc} {symbols : List (Handle .symbol)}
      {origin : Option Anchor} :
      Reached d → d.addPriority assoc symbols origin = .ok d' → Reached d'
  | input {d d' : Draft} {target : Handle .symbol} {hasEoi : Bool} {origin : Option Anchor} :
      Reached d → d.addInput target hasEoi origin = .ok d' → Reached d'
  | rule {d : Draft} {r : Rule} : Reached d → Writing d r → Reached (d.commit r).2

theorem Writing.foldlM {d : Draft} {right : List (Handle .symbol)} {r r' : Rule}
    (hr : Writing d r)
    (h : right.foldlM (fun r h => d.appendSymbol r h none none) r = .ok r') : Writing d r' := by
  induction right generalizing r with
  | nil => exact Except.ok.inj h ▸ hr
  | cons x right ih =>
    rw [List.foldlM_cons] at h
    obtain ⟨r₁, hx, h⟩ := bind_eq_ok.mp h
    exact ih (hr.append hx) h

/-- A rule that was declared as a whole. -/
theorem Reached.addRule {d d' : Draft} (hd : d.Reached) {left : Handle .symbol}
    {right : List (Handle .symbol)} {n : Nat} (h : d.addRule left right = .ok (n, d')) :
    d'.Reached := by
  obtain ⟨r, hbegin, h⟩ := bind_eq_ok.mp h
  obtain ⟨r', hright, h⟩ := bind_eq_ok.mp h
  obtain rfl := (Prod.mk.inj (Except.ok.inj h)).2
  exact hd.rule ((Writing.begin hbegin).foldlM hright)

/-! ## 3. What declarations keep -/

/-- The index names a symbol whose kind satisfies `p`. -/
def HasKind (d : Draft) (p : SymbolKind → Prop) (i : Nat) : Prop :=
  ∃ s, d.symbols[i]? = some s ∧ p s.kind

/-- Kinds that the right side of a rule may have. -/
def IsRuleKind (k : SymbolKind) : Prop := k ≠ .layout

/-- The symbols of a rule are what rules may consist of. -/
structure RuleSound (d : Draft) (r : Rule) : Prop where
  left : d.HasKind (· = .nonterminal) r.left
  right : ∀ s ∈ r.right, d.HasKind IsRuleKind s.target ∧ s.target ≠ 0

/-- What holds of every reached draft. -/
structure Sound (d : Draft) : Prop where
  eoi : d.HasKind (· = .terminal) 0
  rules : ∀ r ∈ d.rules, d.RuleSound r
  inputs : ∀ i ∈ d.inputs, d.HasKind (· = .nonterminal) i.target
  patterns : ∀ p ∈ d.patterns, p.regex.FromText
  lexicalRules : ∀ r ∈ d.lexicalRules, r.regex.FromText

theorem HasKind.push {d d' : Draft} {p : SymbolKind → Prop} {i : Nat} {s : Symbol}
    (h : d.HasKind p i) (hd : d'.symbols = d.symbols.push s) : d'.HasKind p i := by
  obtain ⟨t, ht, hp⟩ := h
  refine ⟨t, ?_, hp⟩
  rw [hd, Array.getElem?_push_lt (Array.getElem?_eq_some_iff.mp ht).1]
  exact congrArg some (Array.getElem?_eq_some_iff.mp ht).2

theorem HasKind.of_symbols_eq {d d' : Draft} {p : SymbolKind → Prop} {i : Nat}
    (h : d.HasKind p i) (hd : d'.symbols = d.symbols) : d'.HasKind p i := by
  obtain ⟨t, ht, hp⟩ := h
  exact ⟨t, by rw [hd]; exact ht, hp⟩

theorem RuleSound.of_symbols_eq {d d' : Draft} {r : Rule} (h : d.RuleSound r)
    (hd : d'.symbols = d.symbols) : d'.RuleSound r :=
  ⟨h.left.of_symbols_eq hd, fun s hs => ⟨(h.right s hs).1.of_symbols_eq hd, (h.right s hs).2⟩⟩

/-- Whatever refers to symbols stays sound when symbols keep their places. -/
theorem Sound.mono {d d' : Draft} (h : d.Sound)
    (hkind : ∀ {p : SymbolKind → Prop} {i : Nat}, d.HasKind p i → d'.HasKind p i)
    (hrules : d'.rules = d.rules) (hinputs : d'.inputs = d.inputs)
    (hpatterns : ∀ p ∈ d'.patterns, p.regex.FromText)
    (hlexical : ∀ r ∈ d'.lexicalRules, r.regex.FromText) : d'.Sound where
  eoi := hkind h.eoi
  rules := by
    rw [hrules]
    intro r hr
    have hs := h.rules r hr
    exact ⟨hkind hs.left, fun s hs' => ⟨hkind (hs.right s hs').1, (hs.right s hs').2⟩⟩
  inputs := by
    rw [hinputs]
    exact fun i hi => hkind (h.inputs i hi)
  patterns := hpatterns
  lexicalRules := hlexical

theorem Sound.addSymbol {d d' : Draft} (h : d.Sound) {name : String} {kind : SymbolKind}
    {typeTag : Option String} {softClass : Option Nat} {origin : Option Anchor}
    {handle : Handle .symbol}
    (hadd : d.addSymbol name kind typeTag softClass origin = .ok (handle, d')) : d'.Sound := by
  unfold Draft.addSymbol at hadd
  split at hadd
  · cases hadd
  · cases hadd
    exact h.mono (fun hk => hk.push rfl) rfl rfl h.patterns h.lexicalRules

/-- A handle that resolves names a symbol. -/
theorem resolve_eq_ok {d : Draft} {h : Handle .symbol} {s : Symbol} (hr : d.resolve h = .ok s) :
    h.draft = d.stamp ∧ d.symbols[h.index]? = some s := by
  unfold resolve at hr
  split at hr
  · rename_i t ht
    cases hr
    split at ht
    · exact ⟨by assumption, ht⟩
    · cases ht
  · cases hr

theorem hasKind_of_resolveNonterminal {d : Draft} {h : Handle .symbol} {s : Symbol}
    (hr : d.resolveNonterminal h = .ok s) : d.HasKind (· = .nonterminal) h.index := by
  obtain ⟨t, hs, hr⟩ := bind_eq_ok.mp hr
  split at hr
  · rename_i hkind
    exact ⟨t, (resolve_eq_ok hs).2, hkind⟩
  · cases hr

theorem RuleSound.of_writing {d : Draft} {r : Rule} (h : Writing d r) : d.RuleSound r := by
  induction h with
  | @begin label left origin r hb =>
    obtain ⟨_, hdiscard, hb⟩ := bind_eq_ok.mp hb
    obtain ⟨s, hs⟩ := discard_eq_ok.mp hdiscard
    cases hb
    exact ⟨hasKind_of_resolveNonterminal hs, by simp⟩
  | @append r r' h label origin _ ha ih =>
    obtain ⟨s, hs, ha⟩ := bind_eq_ok.mp ha
    split at ha
    · cases ha
    · rename_i hkind
      simp only [Bool.or_eq_true, decide_eq_true_eq, not_or] at hkind
      cases ha
      obtain ⟨hdraft, hsym⟩ := resolve_eq_ok hs
      refine ⟨ih.left, fun t ht => ?_⟩
      rcases List.mem_append.mp ht with ht | ht
      · exact ih.right t ht
      · cases List.mem_singleton.mp ht
        refine ⟨⟨s, hsym, hkind.1⟩, fun hzero => hkind.2 ?_⟩
        cases h
        simp only at hzero hdraft
        subst hzero hdraft
        rfl
  | @precedence r r' h _ hp ih =>
    obtain ⟨_, -, hp⟩ := bind_eq_ok.mp hp
    cases hp
    exact ⟨ih.left, ih.right⟩

/-- What an accepted declaration of a lexical rule adds. -/
theorem addLexicalRule_eq_ok {d d' : Draft} {kind : LexicalKind} {symbol : Handle .symbol}
    {regex : Regex} {states : List (Handle .lexerState)} {priority : Int}
    {classRule : Option (Handle .lexicalRule)} {origin : Option Anchor} {h : Handle .lexicalRule}
    (hadd : d.addLexicalRule kind symbol regex states priority classRule origin = .ok (h, d')) :
    ∃ r : LexicalRule, r.regex = regex ∧ d' = { d with lexicalRules := d.lexicalRules.push r } := by
  unfold addLexicalRule at hadd
  simp only [bind, Except.bind, pure, Except.pure, throw, throwThe, MonadExceptOf.throw] at hadd
  repeat' split at hadd
  all_goals cases hadd
  all_goals exact ⟨_, rfl, rfl⟩

theorem addPriority_eq_ok {d d' : Draft} {assoc : Assoc} {symbols : List (Handle .symbol)}
    {origin : Option Anchor} (hadd : d.addPriority assoc symbols origin = .ok d') :
    ∃ p : Priority, d' = { d with priorities := d.priorities.push p } := by
  obtain ⟨_, -, hadd⟩ := bind_eq_ok.mp hadd
  cases hadd
  exact ⟨_, rfl⟩

theorem addInput_eq_ok {d d' : Draft} {target : Handle .symbol} {hasEoi : Bool}
    {origin : Option Anchor} (hadd : d.addInput target hasEoi origin = .ok d') :
    d.HasKind (· = .nonterminal) target.index ∧
      d' = { d with inputs := d.inputs.push { target := target.index, hasEoi, origin } } := by
  obtain ⟨_, hdiscard, hadd⟩ := bind_eq_ok.mp hadd
  obtain ⟨s, hs⟩ := discard_eq_ok.mp hdiscard
  cases hadd
  exact ⟨hasKind_of_resolveNonterminal hs, rfl⟩

/-- **Accepted declarations keep a draft sound.** -/
theorem Reached.sound {d : Draft} (h : d.Reached) : d.Sound := by
  induction h with
  | new stamp =>
    exact ⟨⟨_, rfl, rfl⟩, by simp [Draft.new], by simp [Draft.new], by simp [Draft.new],
      by simp [Draft.new]⟩
  | terminal _ hadd ih => exact ih.addSymbol hadd
  | nonterminal _ hadd ih => exact ih.addSymbol hadd
  | layout _ hadd ih => exact ih.addSymbol hadd
  | soft _ hadd ih =>
    obtain ⟨c, -, hadd⟩ := bind_eq_ok.mp hadd
    split at hadd
    · cases hadd
    · exact ih.addSymbol hadd
  | @pattern d d' name regex origin h _ hre hadd ih =>
    unfold addPattern at hadd
    split at hadd
    · cases hadd
    · cases hadd
      refine ih.mono (fun hk => hk.of_symbols_eq rfl) rfl rfl ?_ ih.lexicalRules
      intro p hp
      rcases Array.mem_push.mp hp with hp | rfl
      · exact ih.patterns p hp
      · exact hre
  | @state d d' name origin h _ hadd ih =>
    unfold addState at hadd
    split at hadd
    · cases hadd
    · cases hadd
      exact ih.mono (fun hk => hk.of_symbols_eq rfl) rfl rfl ih.patterns ih.lexicalRules
  | @lexicalRule d d' kind symbol regex states priority classRule origin h _ hre hadd ih =>
    obtain ⟨r, hr, rfl⟩ := addLexicalRule_eq_ok hadd
    refine ih.mono (fun hk => hk.of_symbols_eq rfl) rfl rfl ih.patterns ?_
    intro q hq
    rcases Array.mem_push.mp hq with hq | rfl
    · exact ih.lexicalRules q hq
    · exact hr ▸ hre
  | priority _ hadd ih =>
    obtain ⟨p, rfl⟩ := addPriority_eq_ok hadd
    exact ih.mono (fun hk => hk.of_symbols_eq rfl) rfl rfl ih.patterns ih.lexicalRules
  | @input d d' target hasEoi origin _ hadd ih =>
    obtain ⟨hkind, rfl⟩ := addInput_eq_ok hadd
    refine ⟨ih.eoi, fun r hr => (ih.rules r hr).of_symbols_eq rfl, ?_, ih.patterns,
      ih.lexicalRules⟩
    intro i hi
    rcases Array.mem_push.mp hi with hi | rfl
    · exact ih.inputs i hi
    · exact hkind
  | @rule d r _ hw ih =>
    refine ⟨ih.eoi, ?_, ih.inputs, ih.patterns, ih.lexicalRules⟩
    intro q hq
    rcases Array.mem_push.mp hq with hq | rfl
    · exact (ih.rules q hq).of_symbols_eq rfl
    · exact (RuleSound.of_writing hw).of_symbols_eq rfl

/-! ## 4. The order of the symbols -/

theorem mem_indicesWhere {d : Draft} {p : SymbolKind → Bool} {i : Nat} :
    i ∈ d.indicesWhere p ↔ d.HasKind (p · = true) i := by
  unfold indicesWhere HasKind
  rw [List.mem_filter, List.mem_range]
  constructor
  · rintro ⟨hlt, h⟩
    rw [Array.getElem?_eq_getElem hlt] at h ⊢
    exact ⟨_, rfl, h⟩
  · rintro ⟨s, hs, hp⟩
    refine ⟨(Array.getElem?_eq_some_iff.mp hs).1, ?_⟩
    rw [hs]
    exact hp

/-- How many of the symbols that `p` selects have a kind in `q`. -/
theorem countP_indicesWhere (d : Draft) (p q : SymbolKind → Bool) :
    (d.indicesWhere p).countP (fun i => d.symbols[i]?.any (q ·.kind))
      = (d.indicesWhere fun k => p k && q k).length := by
  unfold indicesWhere
  rw [List.countP_eq_length_filter, List.filter_filter]
  refine congrArg List.length (List.filter_congr fun i _ => ?_)
  cases d.symbols[i]? with
  | none => rfl
  | some s => simp [Bool.and_comm]

theorem indicesWhere_false (d : Draft) : d.indicesWhere (fun _ => false) = [] := by
  refine List.eq_nil_iff_forall_not_mem.mpr fun i hi => ?_
  obtain ⟨s, -, h⟩ := mem_indicesWhere.mp hi
  cases h

/-- The symbols of the grammar, counted by kind. -/
theorem countP_symbols (d : Draft) (q : SymbolKind → Bool) :
    d.freeze.symbols.countP (q ·.kind) = (d.indicesWhere fun k => k.isTerminal && q k).length
      + (d.indicesWhere fun k => decide (k = .nonterminal) && q k).length
      + (d.indicesWhere fun k => decide (k = .layout) && q k).length := by
  have hcount : d.freeze.symbols.countP (q ·.kind)
      = d.order.countP fun i => d.symbols[i]?.any (q ·.kind) := by
    simp only [freeze, List.countP_toArray, List.countP_filterMap]
    conv_rhs => rw [← List.zipIdx_map_fst 0 d.order, List.countP_map]
    refine List.countP_congr fun e _ => ?_
    cases hs : d.symbols[e.1]? <;> simp [hs]
  rw [hcount, order, List.countP_append, List.countP_append, countP_indicesWhere,
    countP_indicesWhere, countP_indicesWhere]

theorem terminals_freeze (d : Draft) :
    d.freeze.terminals = (d.indicesWhere SymbolKind.isTerminal).length := by
  have h := countP_symbols d SymbolKind.isTerminal
  have h₁ : (fun k : SymbolKind => k.isTerminal && k.isTerminal) = SymbolKind.isTerminal := by
    funext k; cases k <;> rfl
  have h₂ : (fun k : SymbolKind => decide (k = .nonterminal) && k.isTerminal) = fun _ => false := by
    funext k; cases k <;> rfl
  have h₃ : (fun k : SymbolKind => decide (k = .layout) && k.isTerminal) = fun _ => false := by
    funext k; cases k <;> rfl
  rw [h₁, h₂, h₃, indicesWhere_false] at h
  exact h

theorem grammarSymbols_freeze (d : Draft) :
    d.freeze.grammarSymbols = (d.indicesWhere SymbolKind.isTerminal).length
      + (d.indicesWhere (· = .nonterminal)).length := by
  have h := countP_symbols d (fun k => decide (k ≠ .layout))
  have h₁ : (fun k : SymbolKind => k.isTerminal && decide (k ≠ .layout)) =
      SymbolKind.isTerminal := by
    funext k; cases k <;> rfl
  have h₂ : (fun k : SymbolKind => decide (k = .nonterminal) && decide (k ≠ .layout))
      = fun k => decide (k = .nonterminal) := by
    funext k; cases k <;> rfl
  have h₃ : (fun k : SymbolKind => decide (k = .layout) && decide (k ≠ .layout))
      = fun _ => false := by
    funext k; cases k <;> rfl
  rw [h₁, h₂, h₃, indicesWhere_false] at h
  exact h

/-- Where a symbol goes. -/
def place (d : Draft) (i : Nat) : Nat := d.freeze.positions.getD i 0

theorem place_eq {d : Draft} {p : SymbolKind → Prop} {i : Nat} (h : d.HasKind p i) :
    d.place i = d.order.idxOf i := by
  obtain ⟨s, hs, -⟩ := h
  have hlt := (Array.getElem?_eq_some_iff.mp hs).1
  simp [place, freeze, hlt]

theorem HasKind.unique {d : Draft} {p q : SymbolKind → Prop} {i : Nat} (hp : d.HasKind p i)
    (hq : d.HasKind q i) : ∃ k, p k ∧ q k := by
  obtain ⟨s, hs, hps⟩ := hp
  obtain ⟨t, ht, hqt⟩ := hq
  rw [hs] at ht
  cases ht
  exact ⟨_, hps, hqt⟩

theorem place_terminal {d : Draft} {i : Nat} (h : d.HasKind (·.isTerminal = true) i) :
    d.place i = (d.indicesWhere SymbolKind.isTerminal).idxOf i
      ∧ d.place i < d.freeze.terminals := by
  have hmem := mem_indicesWhere.mpr h
  have hidx : d.place i = (d.indicesWhere SymbolKind.isTerminal).idxOf i := by
    rw [place_eq h, order, List.append_assoc, List.idxOf_append_of_mem hmem]
  refine ⟨hidx, ?_⟩
  rw [hidx, terminals_freeze]
  exact List.idxOf_lt_length_of_mem hmem

theorem place_nonterminal {d : Draft} {i : Nat} (h : d.HasKind (· = .nonterminal) i) :
    d.freeze.terminals ≤ d.place i ∧ d.place i < d.freeze.grammarSymbols := by
  have hmem : i ∈ d.indicesWhere (· = .nonterminal) :=
    mem_indicesWhere.mpr (by simpa using h)
  have hnot : i ∉ d.indicesWhere SymbolKind.isTerminal := by
    intro hi
    obtain ⟨k, hk, rfl⟩ := (mem_indicesWhere.mp hi).unique h
    cases hk
  have hlt := List.idxOf_lt_length_of_mem hmem
  rw [place_eq h, order, List.append_assoc, List.idxOf_append_of_notMem hnot,
    List.idxOf_append_of_mem hmem, terminals_freeze, grammarSymbols_freeze]
  omega

theorem mem_rules_freeze {d : Draft} {r : Rule} (h : r ∈ d.freeze.ruleList) :
    ∃ q ∈ d.rules, r = { q with
      left := d.place q.left
      right := q.right.map fun s => { s with target := d.place s.target }
      precedence := q.precedence.map d.place } := by
  simp only [Grammar.ruleList, freeze] at h
  split at h
  · simp only [Option.getD_some, Array.toList_map, List.mem_map, Array.mem_toList_iff] at h
    obtain ⟨q, hq, rfl⟩ := h
    exact ⟨q, hq, rfl⟩
  · simp at h

theorem mem_inputs_freeze {d : Draft} {i : Input} (h : i ∈ d.freeze.inputList) :
    ∃ q ∈ d.inputs, i = { q with target := d.place q.target } := by
  simp only [Grammar.inputList, freeze] at h
  split at h
  · simp only [Option.getD_some, Array.toList_map, List.mem_map, Array.mem_toList_iff] at h
    obtain ⟨q, hq, rfl⟩ := h
    exact ⟨q, hq, rfl⟩
  · simp at h

/-- The end of the input stays the first symbol, and no other symbol takes its place. -/
theorem place_ne_zero {d : Draft} (hd : d.Sound) {i : Nat} (h : d.HasKind IsRuleKind i)
    (hi : i ≠ 0) : d.place i ≠ 0 := by
  have heoi : d.HasKind (·.isTerminal = true) 0 := by
    obtain ⟨s, hs, hk⟩ := hd.eoi
    exact ⟨s, hs, by rw [hk]; rfl⟩
  have hzero := mem_indicesWhere.mpr heoi
  by_cases hterm : d.HasKind (·.isTerminal = true) i
  · rw [(place_terminal hterm).1]
    intro hplace
    -- the indices ascend, so the first of them is 0
    cases hlist : d.indicesWhere SymbolKind.isTerminal with
    | nil => simp [hlist] at hzero
    | cons first rest =>
      have hsorted : (first :: rest).Pairwise (· < ·) :=
        hlist ▸ pairwise_range_filter d.symbols.size _
      have hfirst : first = 0 := by
        rw [hlist] at hzero
        rcases List.mem_cons.mp hzero with rfl | hmem
        · rfl
        · have := (List.pairwise_cons.mp hsorted).1 0 hmem
          omega
      rw [hlist, List.idxOf_cons] at hplace
      cases heq : first == i with
      | true => exact hi (by rw [← beq_iff_eq.mp heq, hfirst])
      | false => simp [heq] at hplace
  · have hnon : d.HasKind (· = .nonterminal) i := by
      obtain ⟨s, hs, hk⟩ := h
      refine ⟨s, hs, ?_⟩
      have hnt : ¬ s.kind.isTerminal = true := fun hk' => hterm ⟨s, hs, hk'⟩
      cases hkind : s.kind with
      | nonterminal => rfl
      | layout => exact absurd hkind hk
      | terminal => simp [hkind, SymbolKind.isTerminal] at hnt
      | softTerminal => simp [hkind, SymbolKind.isTerminal] at hnt
    have hle := (place_nonterminal hnon).1
    have hpos := (place_terminal heoi).2
    omega

theorem place_lt {d : Draft} {i : Nat} (h : d.HasKind IsRuleKind i) :
    d.place i < d.freeze.grammarSymbols := by
  obtain ⟨s, hs, hk⟩ := h
  cases hkind : s.kind with
  | nonterminal => exact (place_nonterminal ⟨s, hs, hkind⟩).2
  | layout => exact absurd hkind hk
  | terminal | softTerminal =>
    have hlt := (place_terminal ⟨s, hs, by rw [hkind]; rfl⟩).2
    rw [terminals_freeze] at hlt
    rw [grammarSymbols_freeze]
    omega

end Draft

/-! ## 5. Frozen grammars -/

namespace Grammar

/-- The grammar was written in a draft and frozen. -/
def Frozen (g : Grammar) : Prop := ∃ d : Draft, d.Reached ∧ d.freeze = g

/-- Rules lead from nonterminals to terminals and nonterminals other than the end of the input,
and inputs are nonterminals. -/
structure WellFormed (g : Grammar) : Prop where
  terminals_pos : 0 < g.terminals
  terminals_le : g.terminals ≤ g.grammarSymbols
  left : ∀ r ∈ g.ruleList, g.terminals ≤ r.left ∧ r.left < g.grammarSymbols
  right : ∀ r ∈ g.ruleList, ∀ s ∈ r.right, s.target ≠ g.eoi ∧ s.target < g.grammarSymbols
  inputs : ∀ i ∈ g.inputList, g.terminals ≤ i.target ∧ i.target < g.grammarSymbols

theorem Frozen.wellFormed {g : Grammar} (h : g.Frozen) : g.WellFormed := by
  obtain ⟨d, hd, rfl⟩ := h
  have hs := hd.sound
  refine ⟨?_, ?_, ?_, ?_, ?_⟩
  · obtain ⟨s, hsym, hk⟩ := hs.eoi
    exact Nat.zero_lt_of_lt (Draft.place_terminal ⟨s, hsym, by rw [hk]; rfl⟩).2
  · rw [Draft.terminals_freeze, Draft.grammarSymbols_freeze]
    omega
  · intro r hr
    obtain ⟨q, hq, rfl⟩ := Draft.mem_rules_freeze hr
    exact Draft.place_nonterminal (hs.rules q hq).left
  · intro r hr s hmem
    obtain ⟨q, hq, rfl⟩ := Draft.mem_rules_freeze hr
    obtain ⟨t, ht, rfl⟩ := List.mem_map.mp hmem
    obtain ⟨hkind, hne⟩ := (hs.rules q hq).right t ht
    exact ⟨Draft.place_ne_zero hs hkind hne, Draft.place_lt hkind⟩
  · intro i hi
    obtain ⟨q, hq, rfl⟩ := Draft.mem_inputs_freeze hi
    exact Draft.place_nonterminal (hs.inputs q hq)

/-- Every regular expression of a frozen grammar was read from a text. -/
theorem Frozen.fromText {g : Grammar} (h : g.Frozen) :
    (∀ p ∈ g.patterns, p.regex.FromText) ∧ ∀ r ∈ g.lexicalRules, r.regex.FromText := by
  obtain ⟨d, hd, rfl⟩ := h
  refine ⟨hd.sound.patterns, ?_⟩
  intro r hr
  obtain ⟨q, hq, rfl⟩ := Array.mem_map.mp hr
  exact hd.sound.lexicalRules q hq

end Grammar

end GrammarTables
