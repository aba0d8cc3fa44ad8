import GrammarTables.Proofs.Grammar.Frozen
/-
# What a draft has checked

Every accepted declaration adds one part to a draft, and the draft has checked what that part
refers to (`Grown`).  A property that survives each kind of addition holds of every reached draft
(`Reached.induct`); with it the names of the symbols are different, soft terminals refine
terminals of their type, precedences and priorities are terminals, and lexical rules fit their
symbols, lexer states and class rules (`Reached.checked`).
-/

namespace GrammarTables

namespace Draft

/-! ## 1. Parts that were checked -/

/-- A soft terminal refines a terminal other than the end of the input and has its type; no other
symbol refines anything. -/
def Refines (d : Draft) (s : Symbol) : Prop :=
  match s.kind with
  | .softTerminal => ∃ i c, s.softClass = some i ∧ i ≠ 0 ∧ d.symbols[i]? = some c ∧
      c.kind = .terminal ∧ s.typeTag = c.typeTag
  | _ => s.softClass = none

/-- The index names a symbol that a lexical rule of the kind may produce. -/
def Produces (d : Draft) (kind : LexicalKind) (i : Nat) : Prop :=
  match kind with
  | .soft => d.HasKind (· = .softTerminal) i
  | .normal | .wordClass => d.HasKind (fun k => k = .terminal ∨ k = .layout) i ∧ i ≠ 0

/-- A lexical rule, the one of index `n`, is active in lexer states that exist, produces a symbol
that fits its kind, and refines at most an earlier class rule. -/
structure LexicalSound (d : Draft) (n : Nat) (r : LexicalRule) : Prop where
  ascending : r.states.Pairwise (· < ·)
  nonempty : r.states ≠ []
  states : ∀ i ∈ r.states, i < d.states.size
  symbol : d.Produces r.kind r.symbol
  classRule : ∀ i ∈ r.classRule, i < n ∧
    ∃ q, d.lexicalRules[i]? = some q ∧ q.kind = .wordClass

/-- `d'` has what can be referred to in `d`, at the same places. -/
structure Extends (d d' : Draft) : Prop where
  symbols : ∀ {i : Nat} {s}, d.symbols[i]? = some s → d'.symbols[i]? = some s
  states : d.states.size ≤ d'.states.size
  lexicalRules : ∀ {i : Nat} {r}, d.lexicalRules[i]? = some r → d'.lexicalRules[i]? = some r

theorem getElem?_push_of_some {α : Type} {a : Array α} {i : Nat} {x y : α}
    (h : a[i]? = some x) : (a.push y)[i]? = some x := by
  rw [Array.getElem?_push_lt (Array.getElem?_eq_some_iff.mp h).1]
  exact congrArg some (Array.getElem?_eq_some_iff.mp h).2

section Extends

variable {d d' : Draft} (he : d.Extends d')

include he

theorem Extends.hasKind {p : SymbolKind → Prop} {i : Nat} (h : d.HasKind p i) :
    d'.HasKind p i := by
  obtain ⟨s, hs, hp⟩ := h
  exact ⟨s, he.symbols hs, hp⟩

theorem Extends.refines {s : Symbol} (h : d.Refines s) : d'.Refines s := by
  unfold Refines at h ⊢
  split at h
  · obtain ⟨i, c, hi, hne, hc, hkind, htype⟩ := h
    exact ⟨i, c, hi, hne, he.symbols hc, hkind, htype⟩
  · exact h

theorem Extends.produces {kind : LexicalKind} {i : Nat} (h : d.Produces kind i) :
    d'.Produces kind i := by
  unfold Produces at h ⊢
  split at h
  · exact he.hasKind h
  · exact ⟨he.hasKind h.1, h.2⟩
  · exact ⟨he.hasKind h.1, h.2⟩

theorem Extends.lexicalSound {n : Nat} {r : LexicalRule} (h : d.LexicalSound n r) :
    d'.LexicalSound n r where
  ascending := h.ascending
  nonempty := h.nonempty
  states i hi := Nat.lt_of_lt_of_le (h.states i hi) he.states
  symbol := he.produces h.symbol
  classRule i hi := by
    obtain ⟨hlt, q, hq, hkind⟩ := h.classRule i hi
    exact ⟨hlt, q, he.lexicalRules hq, hkind⟩

end Extends

/-! ## 2. What a declaration adds -/

/-- A draft and the same draft with one part more, which was checked. -/
inductive Grown (d : Draft) : Draft → Prop
  | symbol {s : Symbol} (name : ∀ t ∈ d.symbols, t.name ≠ s.name) (refines : d.Refines s) :
      Grown d { d with symbols := d.symbols.push s }
  | pattern {p : NamedPattern} : Grown d { d with patterns := d.patterns.push p }
  | state {s : LexerState} : Grown d { d with states := d.states.push s }
  | lexicalRule {r : LexicalRule} (sound : d.LexicalSound d.lexicalRules.size r) :
      Grown d { d with lexicalRules := d.lexicalRules.push r }
  | priority {p : Priority} (terminals : ∀ i ∈ p.symbols, d.HasKind (·.isTerminal = true) i) :
      Grown d { d with priorities := d.priorities.push p }
  | input {i : Input} : Grown d { d with inputs := d.inputs.push i }
  | rule {r : Rule} (precedence : ∀ i ∈ r.precedence, d.HasKind (·.isTerminal = true) i) :
      Grown d { d with rules := d.rules.push r }

theorem Grown.extend {d d' : Draft} (h : d.Grown d') : d.Extends d' := by
  cases h with
  | symbol _ _ => exact ⟨getElem?_push_of_some, Nat.le_refl _, id⟩
  | pattern => exact ⟨id, Nat.le_refl _, id⟩
  | state => exact ⟨id, by simp, id⟩
  | lexicalRule _ => exact ⟨id, Nat.le_refl _, getElem?_push_of_some⟩
  | priority _ => exact ⟨id, Nat.le_refl _, id⟩
  | input => exact ⟨id, Nat.le_refl _, id⟩
  | rule _ => exact ⟨id, Nat.le_refl _, id⟩

/-! ## 3. Declarations add checked parts -/

/-- An accepted symbol has a new name and stands after all others. -/
theorem addSymbol_eq_ok {d d' : Draft} {name : String} {kind : SymbolKind}
    {typeTag : Option String} {softClass : Option Nat} {origin : Option Anchor}
    {h : Handle .symbol} (hadd : d.addSymbol name kind typeTag softClass origin = .ok (h, d')) :
    (∀ t ∈ d.symbols, t.name ≠ name) ∧ h = ⟨d.stamp, d.symbols.size⟩ ∧
      d' = { d with
        symbols := d.symbols.push ⟨d.symbols.size, name, kind, typeTag, softClass, origin⟩ } := by
  unfold addSymbol at hadd
  split at hadd
  · cases hadd
  · rename_i hnone
    cases hadd
    refine ⟨?_, rfl, rfl⟩
    simpa [symbol?] using hnone

/-- A handle other than that of the end of the input has another index. -/
theorem index_ne_zero {d : Draft} {h : Handle .symbol} (hstamp : h.draft = d.stamp)
    (hne : h ≠ d.eoi) : h.index ≠ 0 := by
  rintro hzero
  refine hne ?_
  cases h
  simp only at hstamp hzero
  subst hstamp hzero
  rfl

theorem Grown.addSymbol {d d' : Draft} {name : String} {kind : SymbolKind}
    {typeTag : Option String} {origin : Option Anchor} {h : Handle .symbol}
    (hkind : kind ≠ .softTerminal)
    (hadd : d.addSymbol name kind typeTag none origin = .ok (h, d')) : d.Grown d' := by
  obtain ⟨hname, -, rfl⟩ := addSymbol_eq_ok hadd
  refine Grown.symbol hname ?_
  unfold Refines
  split
  · contradiction
  · rfl

theorem addSoftTerminal_eq_ok {d d' : Draft} {name : String} {softClass h : Handle .symbol}
    {origin : Option Anchor} (hadd : d.addSoftTerminal name softClass origin = .ok (h, d')) :
    ∃ c, d.symbols[softClass.index]? = some c ∧ softClass.index ≠ 0 ∧ c.kind = .terminal ∧
      d.addSymbol name .softTerminal c.typeTag (some softClass.index) origin = .ok (h, d') := by
  obtain ⟨c, hc, hadd⟩ := bind_eq_ok.mp hadd
  obtain ⟨hstamp, hsym⟩ := resolve_eq_ok hc
  split at hadd
  · cases hadd
  · rename_i hcond
    simp only [ne_eq, Bool.or_eq_true, decide_eq_true_eq, not_or, Decidable.not_not] at hcond
    exact ⟨c, hsym, index_ne_zero hstamp hcond.2, hcond.1, hadd⟩

theorem Grown.addSoftTerminal {d d' : Draft} {name : String} {softClass h : Handle .symbol}
    {origin : Option Anchor} (hadd : d.addSoftTerminal name softClass origin = .ok (h, d')) :
    d.Grown d' := by
  obtain ⟨c, hc, hne, hkind, hadd⟩ := addSoftTerminal_eq_ok hadd
  obtain ⟨hname, -, rfl⟩ := addSymbol_eq_ok hadd
  exact Grown.symbol hname ⟨_, c, rfl, hne, hc, hkind, rfl⟩

/-- A check of every element of a list. -/
theorem forM_eq_ok {ε α : Type} {f : α → Except ε Unit} {l : List α} {u : Unit}
    (h : l.forM f = .ok u) : ∀ a ∈ l, f a = .ok () := by
  induction l with
  | nil => simp
  | cons a l ih =>
    rw [List.forM_eq_forM, List.forM_cons] at h
    obtain ⟨_, ha, h⟩ := bind_eq_ok.mp h
    intro b hb
    rcases List.mem_cons.mp hb with rfl | hb
    · exact ha
    · exact ih h b hb

theorem checkState_eq_ok {d : Draft} {h : Handle .lexerState} {u : Unit}
    (hc : d.checkState h = .ok u) : h.index < d.states.size := by
  unfold checkState at hc
  split at hc
  · rename_i hcond
    simp only [Bool.and_eq_true, decide_eq_true_eq] at hcond
    exact hcond.2
  · cases hc

theorem checkClassRule_eq_ok {d : Draft} {h : Handle .lexicalRule} {u : Unit}
    (hc : d.checkClassRule h = .ok u) :
    ∃ q, d.lexicalRules[h.index]? = some q ∧ q.kind = .wordClass := by
  unfold checkClassRule at hc
  split at hc
  · rename_i q hq
    split at hc
    · rename_i hkind
      split at hq
      · exact ⟨q, hq, hkind⟩
      · cases hq
    · cases hc
  · cases hc

theorem produces_of_fits {d : Draft} {kind : LexicalKind} {h : Handle .symbol} {s : Symbol}
    (hs : d.resolve h = .ok s) (hfits : d.fits kind h s = true) : d.Produces kind h.index := by
  obtain ⟨hstamp, hsym⟩ := resolve_eq_ok hs
  cases kind with
  | soft => exact ⟨s, hsym, by simpa [fits] using hfits⟩
  | normal | wordClass =>
    simp only [fits, Bool.and_eq_true, Bool.or_eq_true, decide_eq_true_eq] at hfits
    exact ⟨⟨s, hsym, hfits.1⟩, index_ne_zero hstamp hfits.2⟩

/-- The checks that an accepted lexical rule has passed, and what it adds. -/
theorem addLexicalRule_checks {d d' : Draft} {kind : LexicalKind} {symbol : Handle .symbol}
    {regex : Regex} {states : List (Handle .lexerState)} {priority : Int}
    {classRule : Option (Handle .lexicalRule)} {origin : Option Anchor} {h : Handle .lexicalRule}
    (hadd : d.addLexicalRule kind symbol regex states priority classRule origin = .ok (h, d')) :
    ∃ s, d.resolve symbol = .ok s ∧ d.fits kind symbol s = true ∧ states ≠ [] ∧
      (∀ x ∈ states, d.checkState x = .ok ()) ∧ (∀ c ∈ classRule, d.checkClassRule c = .ok ()) ∧
      d' = { d with lexicalRules := d.lexicalRules.push ⟨kind, symbol.index, regex,
        ascending (states.map (·.index)), priority, classRule.map (·.index), origin⟩ } := by
  obtain ⟨s, hs, hadd⟩ := bind_eq_ok.mp hadd
  by_cases hfits : d.fits kind symbol s = true
  case neg => simp [hfits, bind, Except.bind, throw, throwThe, MonadExceptOf.throw] at hadd
  by_cases hempty : states = []
  case pos => simp [hfits, hempty, bind, Except.bind, throw, throwThe, MonadExceptOf.throw] at hadd
  simp only [hfits, List.isEmpty_iff, hempty, Bool.not_true, Bool.false_eq_true, if_false] at hadd
  obtain ⟨_, hstates, hadd⟩ := bind_eq_ok.mp hadd
  refine ⟨s, hs, hfits, hempty, forM_eq_ok hstates, ?_⟩
  cases classRule with
  | none =>
    cases hadd
    exact ⟨by simp, rfl⟩
  | some c =>
    obtain ⟨_, hclass, hadd⟩ := bind_eq_ok.mp hadd
    cases hadd
    refine ⟨fun x hx => ?_, rfl⟩
    cases hx
    exact hclass

theorem Grown.addLexicalRule {d d' : Draft} {kind : LexicalKind} {symbol : Handle .symbol}
    {regex : Regex} {states : List (Handle .lexerState)} {priority : Int}
    {classRule : Option (Handle .lexicalRule)} {origin : Option Anchor} {h : Handle .lexicalRule}
    (hadd : d.addLexicalRule kind symbol regex states priority classRule origin = .ok (h, d')) :
    d.Grown d' := by
  obtain ⟨s, hs, hfits, hempty, hstates, hclass, rfl⟩ := addLexicalRule_checks hadd
  refine Grown.lexicalRule ⟨pairwise_ascending _, ?_, ?_, produces_of_fits hs hfits, ?_⟩
  · intro hnil
    obtain ⟨x, hx⟩ : ∃ x, x ∈ states := List.exists_mem_of_ne_nil _ hempty
    have hmem := mem_ascending.mpr (List.mem_map_of_mem (f := (·.index)) hx)
    exact List.ne_nil_of_mem hmem hnil
  · intro i hi
    obtain ⟨x, hx, rfl⟩ := List.mem_map.mp (mem_ascending.mp hi)
    exact checkState_eq_ok (hstates x hx)
  · intro i hi
    obtain ⟨c, rfl, rfl⟩ := Option.map_eq_some_iff.mp hi
    obtain ⟨q, hq, hkind⟩ := checkClassRule_eq_ok (hclass c rfl)
    exact ⟨(Array.getElem?_eq_some_iff.mp hq).1, q, hq, hkind⟩

theorem hasKind_of_resolveTerminal {d : Draft} {h : Handle .symbol} {s : Symbol}
    (hr : d.resolveTerminal h = .ok s) : d.HasKind (·.isTerminal = true) h.index := by
  obtain ⟨t, hs, hr⟩ := bind_eq_ok.mp hr
  split at hr
  · rename_i hkind
    exact ⟨t, (resolve_eq_ok hs).2, hkind⟩
  · cases hr

theorem Grown.addPriority {d d' : Draft} {assoc : Assoc} {symbols : List (Handle .symbol)}
    {origin : Option Anchor} (hadd : d.addPriority assoc symbols origin = .ok d') :
    d.Grown d' := by
  obtain ⟨_, hall, hadd⟩ := bind_eq_ok.mp hadd
  cases hadd
  refine Grown.priority ?_
  intro i hi
  obtain ⟨h, hmem, rfl⟩ := List.mem_map.mp hi
  obtain ⟨s, hs⟩ := discard_eq_ok.mp (forM_eq_ok hall h hmem)
  exact hasKind_of_resolveTerminal hs

theorem Writing.precedence_terminal {d : Draft} {r : Rule} (h : Writing d r) :
    ∀ i ∈ r.precedence, d.HasKind (·.isTerminal = true) i := by
  induction h with
  | begin hb =>
    obtain ⟨_, -, hb⟩ := bind_eq_ok.mp hb
    cases hb
    simp
  | append _ ha ih =>
    obtain ⟨s, -, ha⟩ := bind_eq_ok.mp ha
    split at ha
    · cases ha
    · cases ha
      exact ih
  | precedence _ hp _ =>
    obtain ⟨_, hd, hp⟩ := bind_eq_ok.mp hp
    obtain ⟨s, hs⟩ := discard_eq_ok.mp hd
    cases hp
    intro i hi
    cases hi
    exact hasKind_of_resolveTerminal hs

/-! ## 4. Every reached draft -/

/-- What holds of the empty draft and survives every addition holds of every reached draft. -/
theorem Reached.induct {P : Draft → Prop} (hnew : ∀ stamp, P (Draft.new stamp))
    (hstep : ∀ {d d' : Draft}, P d → d.Grown d' → P d') {d : Draft} (h : d.Reached) : P d := by
  induction h with
  | new stamp => exact hnew stamp
  | terminal _ hadd ih => exact hstep ih (.addSymbol (by decide) hadd)
  | nonterminal _ hadd ih => exact hstep ih (.addSymbol (by decide) hadd)
  | layout _ hadd ih => exact hstep ih (.addSymbol (by decide) hadd)
  | soft _ hadd ih => exact hstep ih (.addSoftTerminal hadd)
  | pattern _ _ hadd ih =>
    unfold addPattern at hadd
    split at hadd
    · cases hadd
    · cases hadd
      exact hstep ih .pattern
  | state _ hadd ih =>
    unfold addState at hadd
    split at hadd
    · cases hadd
    · cases hadd
      exact hstep ih .state
  | lexicalRule _ _ hadd ih => exact hstep ih (.addLexicalRule hadd)
  | priority _ hadd ih => exact hstep ih (.addPriority hadd)
  | input _ hadd ih =>
    obtain ⟨-, rfl⟩ := addInput_eq_ok hadd
    exact hstep ih .input
  | rule _ hw ih => exact hstep ih (.rule hw.precedence_terminal)

/-- What a draft has checked of its parts. -/
structure Checked (d : Draft) : Prop where
  eoi : ∃ s, d.symbols[0]? = some s ∧ s.name = eoiName ∧ s.kind = .terminal
  names : (d.symbols.toList.map (·.name)).Nodup
  refines : ∀ s ∈ d.symbols, d.Refines s
  precedence : ∀ r ∈ d.rules, ∀ i ∈ r.precedence, d.HasKind (·.isTerminal = true) i
  priorities : ∀ p ∈ d.priorities, ∀ i ∈ p.symbols, d.HasKind (·.isTerminal = true) i
  lexicalRules : ∀ {n r}, d.lexicalRules[n]? = some r → d.LexicalSound n r

theorem checked_new (stamp : Nat) : (new stamp).Checked where
  eoi := ⟨_, rfl, rfl, rfl⟩
  names := by simp [new]
  refines := by
    intro s hs
    obtain rfl := Array.mem_singleton.mp hs
    exact rfl
  precedence := by simp [new]
  priorities := by simp [new]
  lexicalRules := by simp [new]

/-- What was checked stays so when the draft grows, for the parts that it had. -/
theorem Checked.mono {d d' : Draft} (h : d.Checked) (he : d.Extends d')
    (hnames : (d'.symbols.toList.map (·.name)).Nodup)
    (hrefines : ∀ s ∈ d'.symbols, s ∈ d.symbols ∨ d.Refines s)
    (hrules : ∀ r ∈ d'.rules, r ∈ d.rules ∨ ∀ i ∈ r.precedence, d.HasKind (·.isTerminal = true) i)
    (hpriorities : ∀ p ∈ d'.priorities,
      p ∈ d.priorities ∨ ∀ i ∈ p.symbols, d.HasKind (·.isTerminal = true) i)
    (hlexical : ∀ {n r}, d'.lexicalRules[n]? = some r →
      d.lexicalRules[n]? = some r ∨ d.LexicalSound n r) : d'.Checked where
  eoi := by
    obtain ⟨s, hs, hname, hkind⟩ := h.eoi
    exact ⟨s, he.symbols hs, hname, hkind⟩
  names := hnames
  refines s hs := he.refines ((hrefines s hs).elim (h.refines s) id)
  precedence r hr i hi := he.hasKind ((hrules r hr).elim (h.precedence r · i hi) (· i hi))
  priorities p hp i hi := he.hasKind ((hpriorities p hp).elim (h.priorities p · i hi) (· i hi))
  lexicalRules hr := he.lexicalSound ((hlexical hr).elim h.lexicalRules id)

theorem Checked.grown {d d' : Draft} (h : d.Checked) (hg : d.Grown d') : d'.Checked := by
  have he := hg.extend
  cases hg with
  | @symbol s hname hrefines =>
    refine h.mono he ?_ (fun t ht => ?_) (fun _ => .inl) (fun _ => .inl) .inl
    · rw [Array.toList_push, List.map_append, List.nodup_append]
      refine ⟨h.names, by simp, ?_⟩
      rintro a ha b hb rfl
      obtain ⟨t, ht, rfl⟩ := List.mem_map.mp ha
      simp only [List.map_cons, List.map_nil, List.mem_singleton] at hb
      exact hname t (Array.mem_toList_iff.mp ht) hb
    · rcases Array.mem_push.mp ht with ht | rfl
      · exact .inl ht
      · exact .inr hrefines
  | pattern => exact h.mono he h.names (fun _ => .inl) (fun _ => .inl) (fun _ => .inl) .inl
  | state => exact h.mono he h.names (fun _ => .inl) (fun _ => .inl) (fun _ => .inl) .inl
  | @lexicalRule r hsound =>
    refine h.mono he h.names (fun _ => .inl) (fun _ => .inl) (fun _ => .inl) fun {n q} hq => ?_
    rw [Array.getElem?_push] at hq
    split at hq
    · subst_vars
      cases hq
      exact .inr hsound
    · exact .inl hq
  | @priority p hterm =>
    refine h.mono he h.names (fun _ => .inl) (fun _ => .inl) (fun q hq => ?_) .inl
    rcases Array.mem_push.mp hq with hq | rfl
    · exact .inl hq
    · exact .inr hterm
  | input => exact h.mono he h.names (fun _ => .inl) (fun _ => .inl) (fun _ => .inl) .inl
  | @rule r hprec =>
    refine h.mono he h.names (fun _ => .inl) (fun q hq => ?_) (fun _ => .inl) .inl
    rcases Array.mem_push.mp hq with hq | rfl
    · exact .inl hq
    · exact .inr hprec

/-- **A reached draft has checked its parts.** -/
theorem Reached.checked {d : Draft} (h : d.Reached) : d.Checked :=
  h.induct checked_new Checked.grown

end Draft

end GrammarTables
