import GrammarTables.Proofs.Lr.Bounds
import GrammarTables.Proofs.Parse.Completeness
/-
# Parses never break

Whatever tokens come, in whatever order, every step of a parse stays within the tables
(`Config.Safe`): the states on the stack are states of the tables, one more than there are trees, a
reduction finds its right side on the stack and a state to go to, and an input is accepted only in
its own final state with one tree on the stack.  So a parse fails because of its tokens only, never
because of the stack (`Session.not_internal_of_parse`).

The states on the stack follow the automaton (`Config.Follows`), and everything else is read off
the automaton and the sizes of the tables.
-/

namespace GrammarTables.Parse

open Scan (Token Scanner)
open Lr (ParseTable Productions Automaton ItemState Item)

/-! ## 1. Errors of the machine -/

/-- An error that only tables which do not fit together can cause. -/
def ParseError.Internal : ParseError → Prop
  | .underflow _ | .noGoto _ _ | .emptyStack | .leftOver _ => True
  | .scan _ | .unknownInput _ | .endOfStream | .unexpectedEnd _ | .unexpected _ _ | .stopped => False

theorem not_internal_of_seek {terminals n : Nat} {sc : Scanner} {e : ParseError}
    (h : (seek terminals n sc).1 = .error e) : ¬ e.Internal := by
  induction n generalizing sc with
  | zero =>
    obtain rfl := Except.error.inj h
    exact id
  | succ n ih =>
    unfold seek at h
    split at h
    · obtain rfl := Except.error.inj h
      exact id
    · obtain rfl := Except.error.inj h
      exact id
    · split at h
      · cases h
      · exact ih h

theorem Session.not_internal_of_peek {s : Session} {e : ParseError} (h : s.peek.1 = .error e) :
    ¬ e.Internal := by
  cases hlook : s.lookahead with
  | none =>
    rw [(peek_of_none hlook).1] at h
    exact not_internal_of_seek h
  | some token =>
    rw [peek_of_lookahead hlook] at h
    cases h

namespace Config

/-- The rule that a step reduces, by default or because of the next token. -/
def Reduces (c : Config) (rule : Nat) : Prop :=
  c.default? = some rule ∨ c.default? = none ∧
    ∃ token, c.session.peek.1 = .ok token ∧ c.actionOn token = .reduce rule

/-- A step accepts the input before a token. -/
def Accepts (c : Config) (token : Token) : Prop :=
  c.default? = none ∧ c.session.peek.1 = .ok token ∧ c.actionOn token = .accept

/-- A step that does not fail because of the tokens fails because of the stack. -/
theorem of_internal {c : Config} {e : ParseError} {s : Session} (h : c.step = .failed e s)
    (he : e.Internal) : (∃ rule, c.Reduces rule ∧ ¬ c.Reducible rule) ∨
      ∃ token, c.Accepts token ∧ ∀ f, c.stack ≠ [f] := by
  cases failure_of_step h with
  | reduceByDefault rule hdefault hstuck => exact Or.inl ⟨rule, Or.inl hdefault, hstuck⟩
  | reduce rule token hdefault hpeek haction hstuck =>
    exact Or.inl ⟨rule, Or.inr ⟨hdefault, token, hpeek, haction⟩, hstuck⟩
  | accept token hdefault hpeek haction hstack =>
    exact Or.inr ⟨token, ⟨hdefault, hpeek, haction⟩, hstack⟩
  | peek hdefault hpeek => exact absurd he (Session.not_internal_of_peek hpeek)
  | reject token hdefault hpeek haction herror =>
    rw [herror] at he
    split at he <;> exact he.elim

/-! ## 2. Steps within the tables -/

/-- The states of the machine, the current one first. -/
def states (c : Config) : List Nat := c.stack.map (·.state) ++ [c.start]

/-- The trees of the machine, the last one first. -/
def trees (c : Config) : List Tree := c.stack.map (·.tree)

/-- **A configuration whose next step stays within the tables**, in a parse of an input. -/
structure Safe (t : ParseTable) (input : Nat) (c : Config) : Prop where
  length_states : c.states.length = c.trees.length + 1
  states_lt : ∀ s ∈ c.states, s < t.states
  default_lt : c.state < t.defaultReduce.size
  /-- The token that was looked at is kept until it is taken, and has an entry. -/
  looks : ∀ {token : Token}, c.session.peek.1 = .ok token →
    c.session.peek.2.lookahead = some token ∧ token.symbol < t.terminals ∧
      c.state * t.terminals + token.symbol < t.actions.size
  shifts : ∀ {token : Token} {s : Nat}, c.session.peek.1 = .ok token →
    t.action c.state token.symbol = .shift s → s < t.states
  /-- A reduction finds its right side on the stack, and a state to go to below it. -/
  reduces : ∀ {rule : Nat}, c.Reduces rule → rule < t.rules ∧ rule < t.ruleLength.size ∧
    t.ruleLength.getD rule 0 ≤ c.stack.length ∧ ∃ below next,
      stateAbove c.start (c.stack.drop (t.ruleLength.getD rule 0)) = below ∧
      t.terminals ≤ t.ruleLeft.getD rule 0 ∧
      below * t.nonterminals + t.ruleLeft.getD rule 0 - t.terminals < t.gotos.size ∧
      t.goto below (t.ruleLeft.getD rule 0) = some next ∧ next < t.states
  /-- The input is accepted in its own final state, with one tree on the stack. -/
  accepts : ∀ {token : Token}, c.Accepts token →
    t.finalStates[input]? = some c.state ∧ c.trees.length = 1

theorem Safe.not_internal {t : ParseTable} {input : Nat} {c : Config} (ht : c.session.table = t)
    (h : c.Safe t input) {e : ParseError} {s : Session} (hstep : c.step = .failed e s) :
    ¬ e.Internal := by
  intro he
  subst ht
  rcases of_internal hstep he with ⟨rule, hreduces, hstuck⟩ | ⟨token, haccepts, hstack⟩
  · obtain ⟨-, -, hlength, below, next, rfl, -, -, hgoto, -⟩ := h.reduces hreduces
    exact hstuck ⟨hlength, next, hgoto⟩
  · obtain ⟨f, hf⟩ := List.length_eq_one_iff.mp
      ((List.length_map _).symm.trans (h.accepts haccepts).2)
    exact hstack f hf

end Config

/-! ## 3. Following the automaton is safe -/

theorem Stacked.exists_state {p : Productions} {a : Automaton} (ha : a.Proper p) {start i : Nat}
    (hstart : a.starts[i]? = some start) {frames : List Frame} (h : Stacked a start frames) :
    ∀ s ∈ frames.map (·.state) ++ [start], ∃ st, a.states[s]? = some st := by
  induction h with
  | nil =>
    intro s hs
    obtain rfl := List.mem_singleton.mp hs
    obtain ⟨st, hst, -⟩ := ha.starts hstart
    exact ⟨st, hst⟩
  | cons _ hs hgoto ih =>
    intro s hs'
    rcases List.mem_cons.mp hs' with rfl | hs'
    · obtain ⟨st', hst', -⟩ := ha.goto hs hgoto
      exact ⟨st', hst'⟩
    · exact ih s hs'

section Grammar

variable {g : Grammar} {options : Lr.ParseOptions} {t : ParseTable} {ds : List Diagnostic}
  {input : Nat} {c : Config}

/-- **A reduction finds a state to go to.** -/
theorem Config.Follows.reducible (hg : g.WellFormed)
    (h : c.Follows (.ofGrammar g) (Lr.automatonOf g) g.inputList input) {x rule : Nat}
    (hx : x < g.terminals) (haction : c.session.table.action c.state x = .reduce rule) :
    rule < g.ruleList.length ∧ c.Reducible rule := by
  have hp := Productions.proper_ofGrammar hg
  have ha : (Lr.automatonOf g).Proper (.ofGrammar g) := Automaton.proper_ofProductions hp
  obtain ⟨hlt, harity, hright⟩ := h.of_reduce hp ha hx haction
  obtain ⟨st, hs⟩ := h.exists_state ha
  obtain ⟨-, item, hahead, hnext, rfl⟩ := h.serves.of_reduce hs hx haction
  have hitem := hahead.mem_items hp ha hs
  have hvalid := Lr.valid_of_mem_closure hp (ha.kernel hs).2 item (ha.items hs ▸ hitem)
  have hdot : item.dot = c.arity item.rule :=
    (Nat.le_antisymm hvalid.2 (List.getElem?_eq_none_iff.mp hnext)).trans harity.symm
  obtain ⟨s₀, st₀, u, hpath, hs₀, hu⟩ :=
    h.stacked.path.exists_goto hp ha h.start hs hitem hlt
  have hbelow := (h.stacked.drop (c.arity item.rule)).path
  rw [hdot, symbolsOf, ← List.map_drop] at hpath
  obtain rfl := hbelow.unique hpath
  refine ⟨hlt, ?_, u, ?_⟩
  · have hlength := congrArg List.length hright
    rw [symbolsOf, List.length_map, List.length_reverse, List.length_take, ← harity] at hlength
    omega
  · rw [Config.after?, h.serves.ruleLeft hlt, h.serves.goto hs₀ (hp.left hlt).1 (hp.left hlt).2, hu]

/-- So does a reduction by default. -/
theorem Config.Follows.exists_after (hg : g.WellFormed)
    (h : c.Follows (.ofGrammar g) (Lr.automatonOf g) g.inputList input) {rule : Nat}
    (hreduces : c.Reduces rule) : rule < g.ruleList.length ∧ c.Reducible rule := by
  have ha : (Lr.automatonOf g).Proper (.ofGrammar g) :=
    Automaton.proper_ofProductions (Productions.proper_ofGrammar hg)
  rcases hreduces with hdefault | ⟨-, token, hpeek, haction⟩
  · obtain ⟨x, hx, haction⟩ := h.exists_of_default ha hdefault
    exact h.reducible hg hx haction
  · exact h.reducible hg (h.lt_of_peek hpeek) haction

/-- **An input is accepted in its own final state.** -/
theorem Config.Follows.final_of_accepts (hg : g.WellFormed)
    (h : c.Follows (.ofGrammar g) (Lr.automatonOf g) g.inputList input) {token : Token}
    (haccepts : c.Accepts token) : (Lr.automatonOf g).finals[input]? = some c.state ∧
      c.trees.length = 1 := by
  have hp := Productions.proper_ofGrammar hg
  have ha : (Lr.automatonOf g).Proper (.ofGrammar g) := Automaton.proper_ofProductions hp
  obtain ⟨-, hpeek, haction⟩ := haccepts
  obtain ⟨⟨item, hahead, hnext, hrule⟩, hstack⟩ := h.of_accept hp ha (h.lt_of_peek hpeek) haction
  obtain ⟨st, hs⟩ := h.exists_state ha
  have hitem := hahead.mem_items hp ha hs
  have hvalid := Lr.valid_of_mem_closure hp (ha.kernel hs).2 item (ha.items hs ▸ hitem)
  obtain ⟨y, hy, -⟩ := hp.right_input (hrule ▸ Nat.le_add_right _ _) hvalid.1
  have hdot : item.dot = 1 := by
    have hend := Nat.le_antisymm hvalid.2 (List.getElem?_eq_none_iff.mp hnext)
    rwa [hy] at hend
  have hinput : input < (Productions.ofGrammar g).size - (Productions.ofGrammar g).rules := by
    rw [← ha.length_starts]
    exact (List.getElem?_eq_some_iff.mp h.start).1
  have hkernel : (⟨(Productions.ofGrammar g).rules + input, 1⟩ : Item) ∈ st.kernel := by
    have hmem : item ∈ st.kernel := by
      by_contra hnot
      have hzero := (Lr.of_mem_closure hp (ha.items hs ▸ hitem) hnot).1
      omega
    rwa [Item.eq_of_eq (j := ⟨_, 1⟩) hrule hdot] at hmem
  refine ⟨Lr.Automaton.finals_of_mem hp hinput hs hkernel, ?_⟩
  have hlength := congrArg List.length hstack
  rw [← hrule, hy] at hlength
  rw [Config.trees, List.length_map]
  rwa [symbolsOf, List.length_map] at hlength

/-- **A parse whose stack follows the automaton is safe.** -/
theorem Config.Follows.safe (hg : g.WellFormed) (hbuild : Lr.build g options = .ok (t, ds))
    (ht : c.session.table = t)
    (h : c.Follows (.ofGrammar g) (Lr.automatonOf g) g.inputList input) : c.Safe t input := by
  have ha : (Lr.automatonOf g).Proper (.ofGrammar g) :=
    Automaton.proper_ofProductions (Productions.proper_ofGrammar hg)
  have hbounded := Lr.bounded_of_build hg hbuild
  obtain ⟨hsize, hfinals, hrules⟩ : t.states = (Lr.automatonOf g).size ∧
      t.finalStates = (Lr.automatonOf g).finals.toArray ∧ t.rules = g.ruleList.length := by
    obtain ⟨debug, rfl⟩ := Lr.build_eq_ok hbuild
    exact ⟨rfl, rfl, by simp [ParseTable.rules, Lr.tableOf]⟩
  have hstates : ∀ s ∈ c.states, s < t.states := by
    intro s hs
    obtain ⟨st, hst⟩ := h.stacked.exists_state ha h.start s hs
    exact hsize ▸ (Array.getElem?_eq_some_iff.mp hst).1
  have habove : ∀ n, stateAbove c.start (c.stack.drop n) < t.states := by
    intro n
    obtain ⟨st, hst⟩ := (h.stacked.drop n).path.exists_state ha h.start
    exact hsize ▸ (Array.getElem?_eq_some_iff.mp hst).1
  have hstate : c.state < t.states := habove 0
  subst ht
  refine
    { length_states := by simp [Config.states, Config.trees]
      states_lt := hstates
      default_lt := hbounded.size_defaultReduce ▸ hstate
      looks := ?_
      shifts := ?_
      reduces := ?_
      accepts := ?_ }
  · intro token hpeek
    have hlt := h.keeps.lt_of_peek hpeek
    exact ⟨Session.lookahead_peek hpeek, hlt, hbounded.action_lt hstate hlt⟩
  · intro token s hpeek haction
    have hlt := hbounded.action_lt hstate (h.keeps.lt_of_peek hpeek)
    rw [ParseTable.action, Array.getD_eq_getD_getElem?, Array.getElem?_eq_getElem hlt] at haction
    exact hbounded.shift (haction ▸ Array.getElem_mem hlt)
  · intro rule hreduces
    obtain ⟨hlt, hlength, next, hnext⟩ := h.exists_after hg hreduces
    have hrule : rule < c.session.table.rules := hrules ▸ hlt
    have hleft : c.session.table.terminals ≤ c.session.table.ruleLeft.getD rule 0 ∧ _ :=
      hbounded.left (by
        rw [Array.getD_eq_getD_getElem?, Array.getElem?_eq_getElem hrule]
        exact Array.getElem_mem hrule)
    have hgoto := hbounded.goto_lt (habove (c.arity rule)) hleft.1 hleft.2
    refine ⟨hrule, hbounded.size_ruleLength ▸ hrule, hlength, _, next, rfl, hleft.1, hgoto, hnext, ?_⟩
    refine hbounded.goto (s := next) ?_
    rw [Config.after?, ParseTable.goto, Array.getD_eq_getD_getElem?,
      Array.getElem?_eq_getElem hgoto] at hnext
    exact hnext ▸ Array.getElem_mem hgoto
  · intro token haccepts
    rw [hfinals, List.getElem?_toArray]
    exact h.final_of_accepts hg haccepts

/-! ## 4. Parses -/

/-- A run from a configuration that follows the automaton does so throughout. -/
theorem Config.Follows.of_mem_trace (hg : g.WellFormed) {limit : Nat}
    (h : c.Follows (.ofGrammar g) (Lr.automatonOf g) g.inputList input) {c' : Config}
    (hc' : c' ∈ c.trace limit) :
    c'.Follows (.ofGrammar g) (Lr.automatonOf g) g.inputList input := by
  have hp := Productions.proper_ofGrammar hg
  have ha : (Lr.automatonOf g).Proper (.ofGrammar g) := Automaton.proper_ofProductions hp
  induction limit generalizing c with
  | zero => cases hc'
  | succ n ih =>
    rw [Config.trace] at hc'
    rcases List.mem_cons.mp hc' with rfl | hc'
    · exact h
    · cases hstep : c.step with
      | next c₁ =>
        rw [hstep] at hc'
        exact ih (h.step hp ha hstep) hc'
      | accepted tree s =>
        rw [hstep] at hc'
        cases hc'
      | failed e s =>
        rw [hstep] at hc'
        cases hc'

/-- A run fails in one of its configurations, or is stopped. -/
theorem Config.exists_failed_of_run {limit : Nat} {e : ParseError}
    (h : (c.run limit).1 = .error e) :
    e = .stopped ∨ ∃ c' ∈ c.trace limit, ∃ s, c'.step = .failed e s := by
  induction limit generalizing c with
  | zero => exact Or.inl (Except.error.inj h).symm
  | succ n ih =>
    unfold Config.run at h
    rw [Config.trace]
    cases hstep : c.step with
    | next c₁ =>
      rw [hstep] at h
      rcases ih h with hstopped | ⟨c', hc', hfailed⟩
      · exact Or.inl hstopped
      · exact Or.inr ⟨c', List.mem_cons_of_mem c hc', hfailed⟩
    | accepted tree s =>
      rw [hstep] at h
      cases h
    | failed e' s =>
      rw [hstep] at h
      obtain rfl := Except.error.inj h
      exact Or.inr ⟨c, List.mem_cons_self .., s, hstep⟩

/-- The configurations of a parse are safe, whatever the scanner supplies. -/
theorem Session.safe_of_mem_trace (hg : g.Frozen) (hbuild : Lr.build g options = .ok (t, ds))
    {s : Session} (hs : s.Reached t) {i : Input} (hi : g.inputList[input]? = some i) {limit : Nat}
    (hc : c ∈ s.trace input limit) : c.Safe t input := by
  obtain ⟨rfl, hkeeps⟩ := hs.keeps
  have hserves := Lr.serves_of_build hbuild
  obtain ⟨start, hstart⟩ := exists_start_of_input hg.wellFormed hi
  have hstart' := (hserves.starts input).trans hstart
  have hfollows : Config.Follows (.ofGrammar g) (Lr.automatonOf g) g.inputList input
      ⟨s, start, []⟩ := ⟨hserves, hkeeps, hstart, .nil⟩
  have htable := Session.table_of_mem_trace hc
  rw [Session.trace_eq hstart'] at hc
  exact (hfollows.of_mem_trace hg.wellFormed hc).safe hg.wellFormed hbuild htable

/-- A parse fails because of its tokens only. -/
theorem Session.not_internal_of_parse (hg : g.Frozen)
    (hbuild : Lr.build g options = .ok (t, ds)) {s : Session} (hs : s.Reached t) {i : Input}
    (hi : g.inputList[input]? = some i) {limit : Nat} {e : ParseError}
    (h : (s.parse input limit).1 = .error e) : ¬ e.Internal := by
  obtain ⟨rfl, -⟩ := hs.keeps
  obtain ⟨start, hstart⟩ := exists_start_of_input hg.wellFormed hi
  have hstart' := ((Lr.serves_of_build hbuild).starts input).trans hstart
  rw [Session.parse_eq hstart'] at h
  rcases Config.exists_failed_of_run h with rfl | ⟨c, hc, s', hfailed⟩
  · exact id
  · rw [← Session.trace_eq hstart'] at hc
    exact (Session.safe_of_mem_trace hg hbuild hs hi hc).not_internal
      (Session.table_of_mem_trace hc) hfailed

end Grammar

end GrammarTables.Parse
