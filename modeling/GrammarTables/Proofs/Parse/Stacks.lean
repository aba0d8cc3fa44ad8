import GrammarTables.Parse.Stacks
import GrammarTables.Proofs.Parse.Safety
/-
# Two stacks go like one

A parse that keeps states and trees in two lists goes like one that keeps them in one
(`Config.step_twoStacks`, `Config.trace_twoStacks`), as long as every step stays within the tables:
then nothing is read where nothing is, and the token that was looked at is there.  So what is known
of parses with one stack holds of both (`parse_safe`).
-/

namespace GrammarTables.Parse

open Scan (Token Scanner)
open Lr (ParseTable)

/-! ## 1. The two stacks of a configuration -/

theorem mapError_eq_ok {α ε ε' : Type} {x : Except ε α} {f : ε → ε'} {a : α} :
    x.mapError f = .ok a ↔ x = .ok a := by
  cases x <;> simp [Except.mapError]

theorem mapError_eq_error {α ε ε' : Type} {x : Except ε α} {f : ε → ε'} {e' : ε'} :
    x.mapError f = .error e' ↔ ∃ e, x = .error e ∧ f e = e' := by
  cases x <;> simp [Except.mapError]

theorem ok_bind {α β : Type} (a : α) (f : α → Except Fault β) : (Except.ok a >>= f) = f a := rfl

/-- Looking at the next token is the same with two stacks. -/
theorem Session.look_eq (s : Session) : s.look = (s.peek.1.mapError .error, s.peek.2) := by
  unfold look peek
  cases hlook : s.lookahead with
  | some token =>
    simp only [hlook]
    rfl
  | none =>
    cases hread : s.read (s.scanner.rest.length + 3) with
    | mk result s' => cases result <;> rfl

namespace Config

/-- The states and the trees of a configuration, the last ones last. -/
def twoStacks (c : Config) : Stacks where
  session := c.session
  states := c.start :: (c.stack.map (·.state)).reverse
  trees := (c.stack.map (·.tree)).reverse

@[simp] theorem length_states_twoStacks (c : Config) :
    c.twoStacks.states.length = c.stack.length + 1 := by
  simp [twoStacks]

@[simp] theorem length_trees_twoStacks (c : Config) :
    c.twoStacks.trees.length = c.stack.length := by
  simp [twoStacks]

theorem getLast?_twoStacks (c : Config) : c.twoStacks.states.getLast? = some c.state := by
  unfold twoStacks state stateAbove
  cases c.stack with
  | nil => rfl
  | cons f rest => rw [List.map_cons, List.reverse_cons, ← List.cons_append, List.getLast?_concat]

theorem frames_twoStacks (c : Config) : c.twoStacks.frames = c.stack := by
  unfold twoStacks Stacks.frames
  rw [List.drop_one, List.tail_cons, List.reverse_zipWith (by simp), List.reverse_reverse,
    List.reverse_reverse, List.zipWith_map, List.zipWith_self]
  exact List.map_id _

/-- Cutting frames off the stack cuts as many states and trees off. -/
theorem take_twoStacks {c : Config} {n : Nat} (h : n ≤ c.stack.length) :
    c.twoStacks.states.take (c.twoStacks.states.length - n)
        = { c with stack := c.stack.drop n }.twoStacks.states ∧
      c.twoStacks.trees.take (c.twoStacks.trees.length - n)
        = { c with stack := c.stack.drop n }.twoStacks.trees ∧
      c.twoStacks.trees.drop (c.twoStacks.trees.length - n)
        = (c.stack.take n).reverse.map (·.tree) := by
  rw [length_states_twoStacks, length_trees_twoStacks, Nat.sub_add_comm h]
  simp [twoStacks, List.take_reverse, List.drop_reverse, Nat.sub_sub_self h]

end Config

/-- The outcome of a step, with two stacks. -/
def StepResult.twoStacks : StepResult → StackResult
  | .next c => .next c.twoStacks
  | .accepted tree s => .accepted tree s
  | .failed e s => .failed (.error e) s

namespace Config

/-! ## 2. Steps -/

/-- A reduction that reads the tables where they have entries is the same with two stacks. -/
theorem reduce_twoStacks {c : Config} {rule n left below : Nat}
    (hn : c.session.table.ruleLength[rule]? = some n)
    (hleft : c.session.table.ruleLeft[rule]? = some left)
    (hbelow : stateAbove c.start (c.stack.drop n) = below)
    (hterminals : c.session.table.terminals ≤ left)
    (hgoto : below * c.session.table.nonterminals + left - c.session.table.terminals
      < c.session.table.gotos.size) :
    c.twoStacks.reduce rule = ((c.reduce rule).map twoStacks).mapError .error := by
  have htable : c.twoStacks.session = c.session := rfl
  unfold Stacks.reduce reduce
  simp only [htable, hn, hleft, entry_some, ok_bind, length_trees_twoStacks,
    Array.getD_eq_getD_getElem?, Option.getD_some, hbelow]
  by_cases hshort : c.stack.length < n
  · rw [require_neg (Nat.not_le.mpr hshort), if_pos hshort]
    rfl
  · have hstack := Nat.not_lt.mp hshort
    have hstack' : n ≤ c.twoStacks.states.length := by
      rw [length_states_twoStacks]
      omega
    have hterminals' : c.session.table.terminals ≤ below * c.session.table.nonterminals + left :=
      Nat.le_add_left_of_le hterminals
    obtain ⟨hstates, htrees, hchildren⟩ := take_twoStacks hstack
    have htop : { c with stack := c.stack.drop n }.twoStacks.states.getLast? = some below :=
      (getLast?_twoStacks _).trans (congrArg some hbelow)
    rw [length_trees_twoStacks] at htrees hchildren
    rw [require_pos hstack, require_pos hstack', if_neg hshort, hstates, htrees, hchildren, htop]
    simp only [entry_some, ok_bind, require_pos hterminals', getElem?_eq_some_getD hgoto none]
    unfold ParseTable.goto
    cases hnext : c.session.table.gotos.getD
        (below * c.session.table.nonterminals + left - c.session.table.terminals) none with
    | none => rfl
    | some next => simp [Except.map, Except.mapError, twoStacks]

/-- The reductions of a configuration that is safe read the tables where they have entries. -/
theorem Safe.reduce_twoStacks {c : Config} {input rule : Nat} (h : c.Safe c.session.table input)
    (hreduces : c.Reduces rule) {s : Session} (hs : s.table = c.session.table) :
    { c with session := s }.twoStacks.reduce rule
      = (({ c with session := s }.reduce rule).map twoStacks).mapError .error := by
  obtain ⟨hrule, hlength, -, below, next, hbelow, hterminals, hgoto, -⟩ := h.reduces hreduces
  rw [← hs] at hrule hlength hbelow hterminals hgoto
  exact Config.reduce_twoStacks (getElem?_eq_some_getD hlength 0) (getElem?_eq_some_getD hrule 0)
    hbelow hterminals hgoto

theorem reduced_twoStacks (c : Config) (result : Except ParseError Config) :
    c.twoStacks.reduced ((result.map twoStacks).mapError .error)
      = (match result with
        | .ok c' => StepResult.next c'
        | .error e => .failed e c.session).twoStacks := by
  cases result <;> rfl

theorem shift_twoStacks {c : Config} {token : Token} (h : c.session.lookahead = some token)
    (state : Nat) :
    c.twoStacks.shift state = (StepResult.next (c.shift token state)).twoStacks := by
  have hlook : (c.session.log (.shift state)).lookahead = some token := h
  simp only [Stacks.shift, StepResult.twoStacks, shift, twoStacks, hlook, List.map_cons,
    List.reverse_cons, List.cons_append]
  rfl

theorem accept_twoStacks {c : Config} {token : Token} (h : c.session.lookahead = some token) :
    c.twoStacks.accept = (c.accept token).twoStacks := by
  have hlook : (c.session.log .accept).lookahead = some token := h
  unfold Stacks.accept accept
  simp only [twoStacks, hlook, Option.any_some]
  cases hstack : c.stack with
  | nil => rfl
  | cons f rest =>
    cases rest with
    | nil => rfl
    | cons f' rest => simp [StepResult.twoStacks]

theorem reject_twoStacks {c : Config} {token : Token} (h : c.session.lookahead = some token) :
    c.twoStacks.reject = (c.reject token).twoStacks := by
  have hlook : c.twoStacks.session.lookahead = some token := h
  unfold Stacks.reject
  rw [hlook]
  rfl

/-- **A step is the same with two stacks**, if it stays within the tables. -/
theorem step_twoStacks {c : Config} {input : Nat} (h : c.Safe c.session.table input) :
    c.twoStacks.step = c.step.twoStacks := by
  set s := c.session.log (.stack c.start c.stack) with hs
  have htable : s.table = c.session.table := rfl
  have hstate : c.twoStacks.states.getLast? = some c.state := getLast?_twoStacks _
  have hdefault := getElem?_eq_some_getD h.default_lt none
  have hstep : c.twoStacks.step = { c with session := s }.twoStacks.proceed c.state := by
    simp only [Stacks.step, frames_twoStacks, hstate]
    rfl
  have hsession : { c with session := s }.twoStacks.session = s := rfl
  rw [hstep, Stacks.proceed, hsession, htable, hdefault]
  have hsame : ∀ s : Session, ({ c with session := s } : Config).state = c.state := fun _ => rfl
  unfold Config.step
  simp only [← hs, htable, hsame]
  cases hrule : c.session.table.defaultReduce.getD c.state none with
  | some rule =>
    have hreduce := h.reduce_twoStacks (Or.inl hrule) (s := s.log (.reduceByDefault rule)) htable
    simp only
    change { c with session := s.log (.reduceByDefault rule) }.twoStacks.reduced
      (Except.map _ ({ c with session := s.log (.reduceByDefault rule) }.twoStacks.reduce rule)) = _
    rw [hreduce]
    cases Config.reduce { c with session := s.log (.reduceByDefault rule) } rule <;> rfl
  | none =>
    simp only [Session.look_eq]
    cases hpeek : s.peek with
    | mk result s' =>
      cases result with
      | error e => rfl
      | ok token =>
        obtain ⟨hfst, htable', -⟩ := peek_of_log hpeek
        have hlook : s'.lookahead = some token := by
          have hkept := Session.lookahead_peek (congrArg Prod.fst hpeek)
          rwa [hpeek] at hkept
        have haction := (h.looks hfst).2.2
        simp only [Except.mapError, htable']
        rw [getElem?_eq_some_getD haction .error]
        change { c with session := s' }.twoStacks.act
          (c.session.table.action c.state token.symbol) = _
        cases hact : c.session.table.action c.state token.symbol with
        | shift next => exact shift_twoStacks (c := { c with session := s' }) hlook next
        | reduce rule =>
          have hreduce := h.reduce_twoStacks (Or.inr ⟨hrule, token, hfst, hact⟩)
            (s := s'.log (.reduce rule)) htable'
          change { c with session := s'.log (.reduce rule) }.twoStacks.reduced
            ({ c with session := s'.log (.reduce rule) }.twoStacks.reduce rule) = _
          rw [hreduce]
          exact reduced_twoStacks _ _
        | accept => exact accept_twoStacks (c := { c with session := s' }) hlook
        | error => exact reject_twoStacks (c := { c with session := s' }) hlook

/-! ## 3. Runs -/

/-- The runs of both go through the same configurations. -/
theorem trace_twoStacks {limit input : Nat} {c : Config}
    (h : ∀ c' ∈ c.trace limit, c'.Safe c'.session.table input) :
    c.twoStacks.trace limit = (c.trace limit).map twoStacks := by
  induction limit generalizing c with
  | zero => rfl
  | succ n ih =>
    rw [trace] at h ⊢
    obtain ⟨hc, hrest⟩ := List.forall_mem_cons.mp h
    rw [Stacks.trace, step_twoStacks hc, List.map_cons]
    cases hstep : c.step with
    | next c' =>
      rw [hstep] at hrest
      exact congrArg _ (ih hrest)
    | accepted tree s => rfl
    | failed e s => rfl

/-- And they come to the same. -/
theorem run_twoStacks {limit input : Nat} {c : Config}
    (h : ∀ c' ∈ c.trace limit, c'.Safe c'.session.table input) :
    c.twoStacks.run limit = ((c.run limit).1.mapError .error, (c.run limit).2) := by
  induction limit generalizing c with
  | zero => rfl
  | succ n ih =>
    rw [trace] at h
    obtain ⟨hc, hrest⟩ := List.forall_mem_cons.mp h
    rw [Stacks.run, run, step_twoStacks hc]
    cases hstep : c.step with
    | next c' =>
      rw [hstep] at hrest
      exact ih hrest
    | accepted tree s => rfl
    | failed e s => rfl

end Config

/-! ## 4. Parses -/

/-- A fault that only tables which do not fit together can cause. -/
def Fault.Internal : Fault → Prop
  | .error e => e.Internal
  | .noLookahead | .outOfRange => True

namespace Stacks

/-- The next token, and what the tables say about it, where no reduction by default comes first. -/
def Meets (m : Stacks) (token : Token) (action : Lr.Action) : Prop :=
  ∃ state, m.states.getLast? = some state ∧ m.session.table.defaultReduce[state]? = some none ∧
    m.session.look.1 = .ok token ∧
    m.session.table.actions[state * m.session.table.terminals + token.symbol]? = some action

/-- The rule that a step reduces, by default or because of the next token. -/
def Reduces (m : Stacks) (rule : Nat) : Prop :=
  (∃ state, m.states.getLast? = some state ∧
    m.session.table.defaultReduce[state]? = some (some rule)) ∨
  ∃ token, m.Meets token (.reduce rule)

/-- **The next step stays within the stacks and the tables**, in a parse of an input. -/
structure Safe (t : ParseTable) (input : Nat) (m : Stacks) : Prop where
  length_states : m.states.length = m.trees.length + 1
  states_lt : ∀ s ∈ m.states, s < t.states
  shifts : ∀ {token : Token} {s : Nat}, m.Meets token (.shift s) → s < t.states
  reduces : ∀ {rule : Nat}, m.Reduces rule → rule < t.rules
  /-- The input is accepted in its own final state, with one tree on the stack. -/
  accepts : ∀ {token : Token}, m.Meets token .accept →
    m.states.getLast? = t.finalStates[input]? ∧ m.trees.length = 1
  not_internal : ∀ {e : Fault} {s : Session}, m.step = .failed e s → ¬ e.Internal

end Stacks

namespace Config

theorem of_meets {c : Config} {token : Token} {action : Lr.Action}
    (h : c.twoStacks.Meets token action) :
    c.default? = none ∧ c.session.peek.1 = .ok token ∧ c.actionOn token = action := by
  obtain ⟨state, hstate, hdefault, hlook, haction⟩ := h
  obtain rfl := Option.some.inj ((getLast?_twoStacks c).symm.trans hstate)
  rw [Session.look_eq] at hlook
  exact ⟨getD_of_getElem? hdefault none, mapError_eq_ok.mp hlook, getD_of_getElem? haction .error⟩

theorem of_reduces {c : Config} {rule : Nat} (h : c.twoStacks.Reduces rule) : c.Reduces rule := by
  rcases h with ⟨state, hstate, hdefault⟩ | ⟨token, hmeets⟩
  · obtain rfl := Option.some.inj ((getLast?_twoStacks c).symm.trans hstate)
    exact Or.inl (getD_of_getElem? hdefault none)
  · obtain ⟨hdefault, hpeek, haction⟩ := of_meets hmeets
    exact Or.inr ⟨hdefault, token, hpeek, haction⟩

/-- A configuration that is safe is safe with two stacks. -/
theorem Safe.twoStacks {t : ParseTable} {input : Nat} {c : Config} (ht : c.session.table = t)
    (h : c.Safe t input) : c.twoStacks.Safe t input where
  length_states := by rw [length_states_twoStacks, length_trees_twoStacks]
  states_lt s hs := by
    refine h.states_lt s ?_
    simpa [Config.twoStacks, states, or_comm] using hs
  shifts hmeets := by
    obtain ⟨-, hpeek, haction⟩ := of_meets hmeets
    exact h.shifts hpeek (ht ▸ haction)
  reduces hreduces := (h.reduces (of_reduces hreduces)).1
  accepts hmeets := by
    obtain ⟨hfinal, hlength⟩ := h.accepts (of_meets hmeets)
    refine ⟨(getLast?_twoStacks c).trans hfinal.symm, ?_⟩
    rw [length_trees_twoStacks, ← hlength, trees, List.length_map]
  not_internal {e s} hfailed := by
    subst ht
    rw [step_twoStacks h] at hfailed
    cases hstep : c.step with
    | failed e' s' =>
      rw [hstep] at hfailed
      obtain ⟨rfl, rfl⟩ := StackResult.failed.inj hfailed
      exact h.not_internal rfl hstep
    | next c' => rw [hstep] at hfailed; cases hfailed
    | accepted tree s' => rw [hstep] at hfailed; cases hfailed

end Config

section Grammar

variable {g : Grammar} {options : Lr.ParseOptions} {t : ParseTable} {ds : List Diagnostic}
  {input : Nat}

/-- A parse with two stacks goes like one with one stack. -/
theorem Session.parseStacks_eq {s : Session} {limit : Nat}
    (h : ∀ c ∈ s.trace input limit, c.Safe c.session.table input) :
    s.parseStacks input limit = ((s.parse input limit).1.mapError .error, (s.parse input limit).2) ∧
      s.traceStacks input limit = (s.trace input limit).map Config.twoStacks := by
  cases hstart : s.table.startStates[input]? with
  | none => simp [parseStacks, traceStacks, parse, trace, begin?, hstart, Except.mapError]
  | some start =>
    rw [Session.trace_eq hstart] at h ⊢
    rw [Session.parse_eq hstart, parseStacks, traceStacks, hstart]
    exact ⟨Config.run_twoStacks h, Config.trace_twoStacks h⟩

/-- **A parse never breaks.**  For all grammars that have tables, with conflicts and priorities or
without, whatever the options and whatever the scanner supplies: the entries of the tables refer to
states and rules that there are, and every configuration of a parse of an input is safe.  There is
one state more than there are trees, nothing is read where a stack or a table has nothing, and the
token that was looked at is there when it is taken.  So the parse does not fail because of the
stacks, and it goes like a parse with one stack of states and trees. -/
theorem parse_safe (hg : g.Frozen) (hbuild : Lr.build g options = .ok (t, ds)) {s : Session}
    (hs : s.Reached t) {i : Input} (hi : g.inputList[input]? = some i) (limit : Nat) :
    t.Bounded ∧ (∀ m ∈ s.traceStacks input limit, m.Safe t input) ∧
      (∀ e, (s.parseStacks input limit).1 = .error e → ¬ e.Internal) ∧
      s.traceStacks input limit = (s.trace input limit).map Config.twoStacks ∧
      s.parseStacks input limit
        = ((s.parse input limit).1.mapError .error, (s.parse input limit).2) ∧
      ∀ c ∈ s.trace input limit, c.Safe t input := by
  have hsafe : ∀ c ∈ s.trace input limit, c.Safe t input := fun c hc =>
    Session.safe_of_mem_trace hg hbuild hs hi hc
  have htable : ∀ c ∈ s.trace input limit, c.session.table = t := fun c hc =>
    (Session.table_of_mem_trace hc).trans hs.keeps.1
  obtain ⟨hparse, htrace⟩ := Session.parseStacks_eq fun c hc => htable c hc ▸ hsafe c hc
  refine ⟨Lr.bounded_of_build hg.wellFormed hbuild, ?_, ?_, htrace, hparse, hsafe⟩
  · rw [htrace]
    refine List.forall_mem_map.mpr fun c hc => (hsafe c hc).twoStacks (htable c hc)
  · intro e he
    rw [hparse] at he
    obtain ⟨e', hone, rfl⟩ := mapError_eq_error.mp he
    exact Session.not_internal_of_parse hg hbuild hs hi hone

end Grammar

/-- A parse of a blank, which is no item of a list, fails, but not because of the stacks. -/
theorem parse_safe_list : ∃ e,
    ((Session.new (listTable true) (itemScanner " ")).parseStacks 0 8).1 = .error e ∧
      ¬ e.Internal ∧
      ∀ m ∈ (Session.new (listTable true) (itemScanner " ")).traceStacks 0 8,
        m.Safe (listTable true) 0 := by
  obtain ⟨ds, hbuild⟩ := build_listTable true
  have hinput : listDraft.freeze.inputList[0]? = some { target := 2, hasEoi := true } := by
    decide +kernel
  obtain ⟨-, hsafe, hinternal, -⟩ := parse_safe ⟨listDraft, listDraft_reached, rfl⟩ hbuild
    (.new (itemScanner " ")) hinput 8
  have hnone :
      ((Session.new (listTable true) (itemScanner " ")).parseStacks 0 8).1.toOption.isNone := by
    decide +kernel
  cases hparse : ((Session.new (listTable true) (itemScanner " ")).parseStacks 0 8).1 with
  | error e => exact ⟨e, rfl, hinternal e hparse, hsafe⟩
  | ok tree =>
    rw [hparse] at hnone
    cases hnone

end GrammarTables.Parse
