import GrammarTables.Proofs.Parse.Soundness
/-
# Default reductions change nothing

A default reduction is done without looking at the next token.  In a run that ends well, the tokens
that are still to be taken complete the stack to the input (`Completable`), so the item of the rule
is viable before the next token and the tables reduce it there too (`Config.Follows.justified`).
With that, the machines with and without default reductions take the same steps
(`Config.Mirrors.next`).
-/

namespace GrammarTables.Parse

open Scan (Token Scanner)
open Lr (ParseTable Productions Automaton Item Viable Completes)

/-! ## 1. Runs that end well -/

/-- The tables reduce the default rule of the state, if there is one, before the next token too. -/
def Config.Justified (c : Config) : Prop :=
  ∀ rule, c.default? = some rule →
    ∃ token, c.session.peek.1 = .ok token ∧ c.actionOn token = .reduce rule

/-- The terminals complete what was recognised, the last symbol first, to an input before `e`. -/
def Completable (p : Productions) (input e : Nat) (σ rest : List Nat) : Prop :=
  ∃ (i : Item) (z r : List Nat), Viable p (p.rules + input) e σ i r ∧ p.Yields (i.rest p) z ∧
    rest = z ++ r

section Completable

variable {p : Productions} {input e : Nat} {σ rest : List Nat}

/-- Before a terminal was recognised, it was to come. -/
theorem Completable.of_shift {x : Nat} (hx : x < p.terminals)
    (h : Completable p input e (x :: σ) rest) : Completable p input e σ (x :: rest) := by
  obtain ⟨i, z, r, hviable, hz, rfl⟩ := h
  obtain ⟨j, r', z', hj, hnext, hz', heq⟩ := hviable.exists_next hz
  refine ⟨j, x :: z', r', hj, ?_, ?_⟩
  · rw [Item.rest_of_next hnext]
    exact .terminal hx hz'
  · rw [List.cons_append, heq]

/-- Before a rule was reduced, it was complete. -/
theorem Completable.of_reduce (hp : p.Proper) {rule : Nat} (hrule : rule < p.size)
    (h : Completable p input e (p.leftOf rule :: σ) rest) :
    Viable p (p.rules + input) e ((p.rightOf rule).reverse ++ σ)
      ⟨rule, (p.rightOf rule).length⟩ rest := by
  obtain ⟨i, z, r, hviable, hz, rfl⟩ := h
  obtain ⟨j, r', z', hj, hnext, hz', heq⟩ := hviable.exists_next hz
  rw [← heq]
  exact (hj.close hnext (hp.mem_rulesOf.mpr ⟨hrule, rfl⟩) hz').complete

theorem Completable.of_complete {rule : Nat}
    (h : Viable p (p.rules + input) e σ ⟨rule, (p.rightOf rule).length⟩ rest) :
    Completable p input e σ rest := by
  refine ⟨_, [], rest, h, ?_, rfl⟩
  rw [Item.rest, List.drop_length]
  exact .nil

end Completable

section Runs

variable {p : Productions} {a : Automaton} {inputs : List Input} {input : Nat}

/-- The tokens that complete a configuration to an input: those that a run takes and the one after
them.  The first of them comes next. -/
def Config.CompletedBy (p : Productions) (inputs : List Input) (input : Nat) (c : Config)
    (tokens : List Token) (e : Token) : Prop :=
  Lr.MayFollow p inputs input e.symbol ∧
    Completable p input e.symbol (symbolsOf c.stack) ((tokens ++ [e]).map (·.symbol)) ∧
    ∃ token rest, tokens ++ [e] = token :: rest ∧ c.session.peek.1 = .ok token

/-- At the end, the token that is not taken completes the stack. -/
theorem Config.Follows.completedBy_of_accepted (hp : p.Proper) (ha : a.Proper p) {c : Config}
    (h : c.Follows p a inputs input) {tree : Tree} {s : Session}
    (hstep : c.step = .accepted tree s) : ∃ e, c.CompletedBy p inputs input [] e := by
  obtain ⟨token, f, -, hpeek, haction, hstack, -⟩ := accepted_of_step hstep
  obtain ⟨⟨i, hahead, -, hrule⟩, hsymbols⟩ := h.of_accept hp ha (h.lt_of_peek hpeek) haction
  refine ⟨token, hahead.mayFollow hp ha hrule, ?_, token, [], rfl, hpeek⟩
  have hinput : Viable p (p.rules + input) token.symbol _ _ _ := Viable.start.complete
  have hreverse : (p.rightOf (p.rules + input)).reverse ++ [] = symbolsOf c.stack := by
    rw [← hsymbols, hstack]
    rfl
  rw [hreverse] at hinput
  exact .of_complete hinput

/-- Before a rule was reduced it was complete. -/
theorem Config.Follows.viable_of_reduced (hp : p.Proper) (ha : a.Proper p) {c c' : Config}
    (h : c.Follows p a inputs input) {x rule e : Nat} {rest : List Nat} (hx : x < p.terminals)
    (haction : c.session.table.action c.state x = .reduce rule)
    (hreduced : c.Reduced rule c'.stack)
    (hrest : Completable p input e (symbolsOf c'.stack) rest) :
    Viable p (p.rules + input) e (symbolsOf c.stack) ⟨rule, (p.rightOf rule).length⟩ rest := by
  obtain ⟨hrule, -, hright⟩ := h.of_reduce hp ha hx haction
  obtain ⟨-, span, next, -, hstack⟩ := hreduced
  rw [hstack, h.serves.ruleLeft hrule] at hrest
  have hcomplete := Completable.of_reduce hp (Nat.lt_of_lt_of_le hrule hp.rules_le) hrest
  have hsplit : symbolsOf c.stack =
      (p.rightOf rule).reverse ++ symbolsOf (c.stack.drop (c.arity rule)) := by
    rw [← hright, symbolsOf, symbolsOf, symbolsOf, List.map_reverse, List.reverse_reverse,
      ← List.map_append, List.take_append_drop]
  rw [hsplit]
  exact hcomplete

/-- A default reduction of a rule that is complete before the next token is justified. -/
theorem Config.Follows.justified (hp : p.Proper) (ha : a.Proper p) {c : Config}
    (h : c.Follows p a inputs input) {rule : Nat} (hdefault : c.default? = some rule)
    {e token : Token} {rest : List Token} (he : Lr.MayFollow p inputs input e.symbol)
    (hpeek : c.session.peek.1 = .ok token)
    (hviable : Viable p (p.rules + input) e.symbol (symbolsOf c.stack)
      ⟨rule, (p.rightOf rule).length⟩ ((token :: rest).map (·.symbol))) : c.Justified := by
  intro rule' hrule'
  obtain rfl := Option.some.inj (hdefault.symm.trans hrule')
  obtain ⟨b, w, hb, hahead⟩ := hviable.ahead hp ha h.start he h.stacked.path
  obtain ⟨rfl, -⟩ := List.cons.inj hb
  obtain ⟨st, hs⟩ := h.exists_state ha
  have hcompletes : Completes p a inputs c.state token.symbol rule :=
    ⟨_, hahead, List.getElem?_eq_none (Nat.le_refl _), rfl⟩
  have hne := h.serves.ne_error hs hahead.lt_terminals hcompletes
  have haction := (h.serves.default hs hdefault).2 _ hahead.lt_terminals
  exact ⟨token, hpeek, haction.resolve_left hne⟩

/-- **Before a step, the token that it takes comes first**, and a default reduction is justified. -/
theorem Config.Follows.completedBy_of_next (hp : p.Proper) (ha : a.Proper p) {c c' : Config}
    (h : c.Follows p a inputs input) (hstep : c.step = .next c') {tokens : List Token} {e : Token}
    (hc' : c'.CompletedBy p inputs input tokens e) :
    c.CompletedBy p inputs input (c.taken?.toList ++ tokens) e ∧ c.Justified := by
  obtain ⟨he, hcompletable, token, rest, htokens, hpeek'⟩ := hc'
  cases (effect_of_step hstep).1 with
  | shift token' u hdefault hpeek haction hstack _ _ =>
    rw [taken?_of_shift hdefault hpeek haction]
    refine ⟨⟨he, ?_, token', tokens ++ [e], rfl, hpeek⟩, fun rule hrule => ?_⟩
    · rw [hstack] at hcompletable
      exact hcompletable.of_shift (h.lt_of_peek hpeek)
    · exact absurd (hdefault.symm.trans hrule) (by simp)
  | reduceByDefault rule hdefault hstack hsession =>
    have hpeek : c.session.peek.1 = .ok token := hsession.peek.1.symm.trans hpeek'
    obtain ⟨x, hx, haction⟩ := h.exists_of_default ha hdefault
    have hviable := h.viable_of_reduced hp ha hx haction hstack hcompletable
    rw [taken?_of_default hdefault]
    refine ⟨⟨he, .of_complete hviable, token, rest, htokens, hpeek⟩, ?_⟩
    rw [htokens] at hviable
    exact h.justified hp ha hdefault he hpeek hviable
  | reduce rule token' hdefault hpeek haction hstack hsession =>
    have hsame := hsession.peek.1
    rw [Session.peek_peek hpeek, hpeek'] at hsame
    obtain rfl := Except.ok.inj hsame
    have hviable := h.viable_of_reduced hp ha (h.lt_of_peek hpeek) haction hstack hcompletable
    rw [taken?_of_reduce hdefault hpeek haction]
    refine ⟨⟨he, .of_complete hviable, token, rest, htokens, hpeek⟩, fun rule hrule => ?_⟩
    exact absurd (hdefault.symm.trans hrule) (by simp)

/-- **In a run that ends well, every default reduction is justified.** -/
theorem Config.Follows.justified_of_run (hp : p.Proper) (ha : a.Proper p) {limit : Nat}
    {c : Config} (h : c.Follows p a inputs input) {tree : Tree} {s : Session}
    (hrun : c.run limit = (.ok tree, s)) :
    (∃ e, c.CompletedBy p inputs input (c.shifted limit) e) ∧
      ∀ c' ∈ c.trace limit, c'.Justified := by
  induction limit generalizing c with
  | zero => cases hrun
  | succ n ih =>
    obtain ⟨m, hm, ⟨c', hstep, hrun'⟩ | haccepted⟩ := run_eq_ok hrun
    · obtain rfl := Nat.succ.inj hm
      obtain ⟨⟨e, hcompleted⟩, hjustified⟩ := ih (h.step hp ha hstep) hrun'
      obtain ⟨hcompleted', hjustified'⟩ := h.completedBy_of_next hp ha hstep hcompleted
      rw [shifted_of_next hstep, trace, hstep]
      refine ⟨⟨e, hcompleted'⟩, ?_⟩
      intro c₁ hc₁
      rcases List.mem_cons.mp hc₁ with rfl | hc₁
      · exact hjustified'
      · exact hjustified c₁ hc₁
    · rw [shifted_of_accepted haccepted, trace, haccepted]
      refine ⟨h.completedBy_of_accepted hp ha haccepted, ?_⟩
      intro c₁ hc₁ rule hrule
      obtain rfl := List.mem_singleton.mp hc₁
      obtain ⟨token, f, hdefault, -⟩ := accepted_of_step haccepted
      exact absurd (hdefault.symm.trans hrule) (by simp)

end Runs

/-! ## 2. Trees without spans -/

namespace Tree

mutual

/-- The tree without the spans of its branches. -/
def eraseSpans : Tree → Tree
  | .leaf token => .leaf token
  | .branch rule symbol _ children => .branch rule symbol (.point .start) (eraseSpansAll children)

/-- `eraseSpans` of each tree of a list. -/
def eraseSpansAll : List Tree → List Tree
  | [] => []
  | t :: ts => eraseSpans t :: eraseSpansAll ts

end

theorem eraseSpansAll_eq (ts : List Tree) : eraseSpansAll ts = ts.map eraseSpans := by
  induction ts with
  | nil => rfl
  | cons t ts ih => rw [eraseSpansAll, ih, List.map_cons]

end Tree

/-- The frame without the spans of its tree. -/
def Frame.eraseSpans (f : Frame) : Frame := ⟨f.tree.eraseSpans, f.state⟩

theorem stateAbove_map_eraseSpans (start : Nat) (frames : List Frame) :
    stateAbove start (frames.map Frame.eraseSpans) = stateAbove start frames := by
  cases frames <;> rfl

/-! ## 3. Two machines -/

/-- Sessions that see the same tokens, once the next one has been looked at. -/
def Session.Sees (s s' : Session) : Prop := s.peek.1 = s'.peek.1 ∧ s.peek.2.Alike s'.peek.2

namespace Session.Sees

variable {s s' s'' : Session}

theorem symm (h : s.Sees s') : s'.Sees s := ⟨h.1.symm, h.2.symm⟩

theorem trans (h : s.Sees s') (h' : s'.Sees s'') : s.Sees s'' :=
  ⟨h.1.trans h'.1, h.2.trans h'.2⟩

/-- Having looked at the next token makes no difference. -/
theorem of_looked {token : Token} (hpeek : s.peek.1 = .ok token) (h : s'.Alike s.peek.2) :
    s'.Sees s := by
  obtain ⟨hfst, hsnd⟩ := h.peek
  rw [peek_peek hpeek] at hfst hsnd
  exact ⟨hfst.trans hpeek.symm, hsnd⟩

end Session.Sees

/-- The second machine has no default reductions, and otherwise the tables of the first one; the
stacks are the same up to spans, and both see the same tokens. -/
structure Config.Mirrors (c₁ c₀ : Config) : Prop where
  tables : ∃ defaultReduce debug,
    c₁.session.table = { c₀.session.table with defaultReduce, debug }
  plain : ∀ s, c₀.session.table.defaultReduce.getD s none = none
  start : c₁.start = c₀.start
  stack : c₁.stack.map Frame.eraseSpans = c₀.stack.map Frame.eraseSpans
  sees : c₁.session.Sees c₀.session

namespace Config.Mirrors

variable {c₁ c₀ c₁' c₀' : Config} {rule : Nat} {token : Token}

theorem state_eq (h : c₁.Mirrors c₀) : c₁.state = c₀.state := by
  rw [Config.state, Config.state, ← stateAbove_map_eraseSpans, h.stack, stateAbove_map_eraseSpans,
    h.start]

theorem actionOn_eq (h : c₁.Mirrors c₀) : c₁.actionOn token = c₀.actionOn token := by
  obtain ⟨defaultReduce, debug, htable⟩ := h.tables
  rw [Config.actionOn, Config.actionOn, h.state_eq, htable]
  rfl

theorem arity_eq (h : c₁.Mirrors c₀) : c₁.arity rule = c₀.arity rule := by
  obtain ⟨defaultReduce, debug, htable⟩ := h.tables
  rw [Config.arity, Config.arity, htable]

theorem drop_eq (h : c₁.Mirrors c₀) (n : Nat) :
    (c₁.stack.drop n).map Frame.eraseSpans = (c₀.stack.drop n).map Frame.eraseSpans := by
  rw [List.map_drop, List.map_drop, h.stack]

theorem after?_eq (h : c₁.Mirrors c₀) : c₁.after? rule = c₀.after? rule := by
  have harity : c₁.arity rule = c₀.arity rule := h.arity_eq
  obtain ⟨defaultReduce, debug, htable⟩ := h.tables
  rw [Config.after?, Config.after?, ← stateAbove_map_eraseSpans, harity, h.drop_eq,
    stateAbove_map_eraseSpans, h.start, htable]
  rfl

theorem reducible (h : c₁.Mirrors c₀) : c₁.Reducible rule ↔ c₀.Reducible rule := by
  have hlength := congrArg List.length h.stack
  rw [List.length_map, List.length_map] at hlength
  rw [Config.Reducible, Config.Reducible, h.arity_eq, h.after?_eq, hlength]

/-- Reducing the same rule keeps the stacks the same up to spans. -/
theorem reduced (h : c₁.Mirrors c₀) (h₁ : c₁.Reduced rule c₁'.stack)
    (h₀ : c₀.Reduced rule c₀'.stack) :
    c₁'.stack.map Frame.eraseSpans = c₀'.stack.map Frame.eraseSpans := by
  obtain ⟨-, span₁, next₁, hnext₁, hstack₁⟩ := h₁
  obtain ⟨-, span₀, next₀, hnext₀, hstack₀⟩ := h₀
  obtain rfl := Option.some.inj ((hnext₁.symm.trans h.after?_eq).trans hnext₀)
  have hleft : c₁.session.table.ruleLeft = c₀.session.table.ruleLeft := by
    obtain ⟨defaultReduce, debug, htable⟩ := h.tables
    rw [htable]
  have hchildren : ((c₁.stack.take (c₀.arity rule)).reverse.map (·.tree)).map Tree.eraseSpans =
      ((c₀.stack.take (c₀.arity rule)).reverse.map (·.tree)).map Tree.eraseSpans := by
    have htake := congrArg (fun frames => ((frames.take (c₀.arity rule)).reverse.map Frame.tree))
      h.stack
    simp only [← List.map_take, ← List.map_reverse, List.map_map] at htake
    rw [List.map_map, List.map_map]
    exact htake
  rw [h.arity_eq, hleft] at hstack₁
  rw [hstack₁, hstack₀, List.map_cons, List.map_cons, h.drop_eq, Frame.eraseSpans,
    Frame.eraseSpans, Tree.eraseSpans, Tree.eraseSpans, Tree.eraseSpansAll_eq,
    Tree.eraseSpansAll_eq, hchildren]

theorem default?_eq_none (h : c₁.Mirrors c₀) : c₀.default? = none := h.plain c₀.state

/-- The machines go on together if the stacks stay the same and the same tokens come. -/
theorem of_steps (h : c₁.Mirrors c₀) (hstep₁ : c₁.step = .next c₁') (hstep₀ : c₀.step = .next c₀')
    (hstack : c₁'.stack.map Frame.eraseSpans = c₀'.stack.map Frame.eraseSpans)
    (hsees : c₁'.session.Sees c₀'.session) : c₁'.Mirrors c₀' := by
  obtain ⟨-, hstart₁, htable₁⟩ := effect_of_step hstep₁
  obtain ⟨-, hstart₀, htable₀⟩ := effect_of_step hstep₀
  refine ⟨?_, ?_, ?_, hstack, hsees⟩
  · rw [htable₁, htable₀]
    exact h.tables
  · rw [htable₀]
    exact h.plain
  · rw [hstart₁, hstart₀, h.start]

/-- The second machine reduces a rule before the next token together with the first one. -/
theorem reduce (h : c₁.Mirrors c₀) (hstep : c₁.step = .next c₁')
    (hpeek : c₁.session.peek.1 = .ok token) (haction : c₁.actionOn token = .reduce rule)
    (hreduced : c₁.Reduced rule c₁'.stack) (hsees : c₁'.session.Sees c₁.session) :
    ∃ c₀', c₀.step = .next c₀' ∧ c₁'.Mirrors c₀' ∧ c₀.taken? = none := by
  have hpeek₀ : c₀.session.peek.1 = .ok token := h.sees.1.symm.trans hpeek
  have haction₀ : c₀.actionOn token = .reduce rule := h.actionOn_eq.symm.trans haction
  have hreducible : c₀.Reducible rule := by
    obtain ⟨hlength, -, next, hnext, -⟩ := hreduced
    exact h.reducible.mp ⟨hlength, next, hnext⟩
  obtain ⟨c₀', hstep₀⟩ := step_of_reduce h.default?_eq_none hpeek₀ haction₀ hreducible
  refine ⟨c₀', hstep₀, ?_, taken?_of_reduce h.default?_eq_none hpeek₀ haction₀⟩
  cases (effect_of_step hstep₀).1 with
  | reduce rule' token' _ hpeek' haction' hreduced' hsession' =>
    obtain rfl := Except.ok.inj (hpeek₀.symm.trans hpeek')
    obtain rfl := Lr.Action.reduce.inj (haction₀.symm.trans haction')
    exact h.of_steps hstep hstep₀ (h.reduced hreduced hreduced')
      ((hsees.trans h.sees).trans (Session.Sees.of_looked hpeek₀ hsession').symm)
  | shift => grind
  | reduceByDefault => grind [h.default?_eq_none]

/-- **Where default reductions are justified, the second machine does the steps of the first.** -/
theorem next (h : c₁.Mirrors c₀) (hjustified : c₁.Justified) (hstep : c₁.step = .next c₁') :
    ∃ c₀', c₀.step = .next c₀' ∧ c₁'.Mirrors c₀' ∧ c₁.taken? = c₀.taken? := by
  cases (effect_of_step hstep).1 with
  | shift token u hdefault hpeek haction hstack hscanner hlookahead =>
    have hpeek₀ : c₀.session.peek.1 = .ok token := h.sees.1.symm.trans hpeek
    have haction₀ : c₀.actionOn token = .shift u := h.actionOn_eq.symm.trans haction
    obtain ⟨c₀', hstep₀⟩ := step_of_shift h.default?_eq_none hpeek₀ haction₀
    refine ⟨c₀', hstep₀, ?_, ?_⟩
    · cases (effect_of_step hstep₀).1 with
      | shift token' u' _ hpeek' haction' hstack' hscanner' hlookahead' =>
        obtain rfl := Except.ok.inj (hpeek₀.symm.trans hpeek')
        obtain rfl := Lr.Action.shift.inj (haction₀.symm.trans haction')
        refine h.of_steps hstep hstep₀ ?_ (Session.Alike.peek ⟨?_, ?_, ?_⟩)
        · rw [hstack, hstack', List.map_cons, List.map_cons, h.stack]
        · rw [(effect_of_step hstep).2.2, (effect_of_step hstep₀).2.2]
          obtain ⟨defaultReduce, debug, htable⟩ := h.tables
          rw [htable]
        · rw [hscanner, hscanner', h.sees.2.scanner]
        · rw [hlookahead, hlookahead']
      | reduceByDefault => grind [h.default?_eq_none]
      | reduce => grind
    · rw [taken?_of_shift hdefault hpeek haction,
        taken?_of_shift h.default?_eq_none hpeek₀ haction₀]
  | reduceByDefault rule hdefault hreduced hsession =>
    obtain ⟨token, hpeek, haction⟩ := hjustified rule hdefault
    obtain ⟨c₀', hstep₀, hmirrors, htaken⟩ := h.reduce hstep hpeek haction hreduced hsession.peek
    exact ⟨c₀', hstep₀, hmirrors, (taken?_of_default hdefault).trans htaken.symm⟩
  | reduce rule token hdefault hpeek haction hreduced hsession =>
    obtain ⟨c₀', hstep₀, hmirrors, htaken⟩ := h.reduce hstep hpeek haction hreduced
      (.of_looked hpeek hsession)
    exact ⟨c₀', hstep₀, hmirrors, (taken?_of_reduce hdefault hpeek haction).trans htaken.symm⟩

/-- The second machine accepts together with the first one. -/
theorem accepted (h : c₁.Mirrors c₀) {tree₁ : Tree} {s₁ : Session}
    (hstep : c₁.step = .accepted tree₁ s₁) :
    ∃ tree₀ s₀, c₀.step = .accepted tree₀ s₀ ∧ tree₁.eraseSpans = tree₀.eraseSpans ∧
      s₁.Alike s₀ := by
  obtain ⟨token, f, -, hpeek, haction, hstack, rfl, htable, hscanner, hlookahead⟩ :=
    accepted_of_step hstep
  have hpeek₀ : c₀.session.peek.1 = .ok token := h.sees.1.symm.trans hpeek
  have haction₀ : c₀.actionOn token = .accept := h.actionOn_eq.symm.trans haction
  have hframes := h.stack
  rw [hstack, List.map_singleton, eq_comm, List.map_eq_singleton_iff] at hframes
  obtain ⟨f₀, hstack₀, hframe⟩ := hframes
  obtain ⟨s₀, hstep₀⟩ := step_of_accept h.default?_eq_none hpeek₀ haction₀ hstack₀
  obtain ⟨token', f', -, hpeek', -, -, -, htable', hscanner', hlookahead'⟩ :=
    accepted_of_step hstep₀
  obtain rfl := Except.ok.inj (hpeek₀.symm.trans hpeek')
  refine ⟨f₀.tree, s₀, hstep₀, (congrArg Frame.tree hframe).symm, ?_, ?_, ?_⟩
  · obtain ⟨defaultReduce, debug, htables⟩ := h.tables
    rw [htable, htable', htables]
  · rw [hscanner, hscanner', h.sees.2.scanner]
  · rw [hlookahead, hlookahead']

/-- The first machine can do a step of the second one. -/
theorem exists_next (h : c₁.Mirrors c₀) (hjustified : c₁.Justified)
    (hstep₀ : c₀.step = .next c₀') : ∃ c₁', c₁.step = .next c₁' := by
  cases (effect_of_step hstep₀).1 with
  | shift token u _ hpeek haction _ _ _ =>
    have hpeek₁ : c₁.session.peek.1 = .ok token := h.sees.1.trans hpeek
    have haction₁ : c₁.actionOn token = .shift u := h.actionOn_eq.trans haction
    cases hdefault : c₁.default? with
    | none => exact step_of_shift hdefault hpeek₁ haction₁
    | some rule => grind [hjustified rule hdefault]
  | reduceByDefault => grind [h.default?_eq_none]
  | reduce rule token _ hpeek haction hreduced _ =>
    have hpeek₁ : c₁.session.peek.1 = .ok token := h.sees.1.trans hpeek
    have haction₁ : c₁.actionOn token = .reduce rule := h.actionOn_eq.trans haction
    have hreducible : c₁.Reducible rule := by
      obtain ⟨hlength, -, next, hnext, -⟩ := hreduced
      exact h.reducible.mpr ⟨hlength, next, hnext⟩
    cases hdefault : c₁.default? with
    | none => exact step_of_reduce hdefault hpeek₁ haction₁ hreducible
    | some rule' =>
      obtain rfl : rule' = rule := by grind [hjustified rule' hdefault]
      exact step_of_default hdefault hreducible

/-- The first machine accepts together with the second one. -/
theorem exists_accepted (h : c₁.Mirrors c₀) (hjustified : c₁.Justified) {tree₀ : Tree}
    {s₀ : Session} (hstep₀ : c₀.step = .accepted tree₀ s₀) :
    ∃ tree₁ s₁, c₁.step = .accepted tree₁ s₁ := by
  obtain ⟨token, f₀, -, hpeek, haction, hstack, -⟩ := accepted_of_step hstep₀
  have hpeek₁ : c₁.session.peek.1 = .ok token := h.sees.1.trans hpeek
  have haction₁ : c₁.actionOn token = .accept := h.actionOn_eq.trans haction
  have hframes := h.stack
  rw [hstack, List.map_singleton, List.map_eq_singleton_iff] at hframes
  obtain ⟨f₁, hstack₁, -⟩ := hframes
  cases hdefault : c₁.default? with
  | none =>
    obtain ⟨s₁, hstep₁⟩ := step_of_accept hdefault hpeek₁ haction₁ hstack₁
    exact ⟨f₁.tree, s₁, hstep₁⟩
  | some rule => grind [hjustified rule hdefault]

/-- Where the second machine does not fail, a default reduction is justified. -/
theorem justified {p : Productions} {a : Automaton} {inputs : List Input} {input : Nat}
    (ha : a.Proper p) (h : c₁.Mirrors c₀) (hfollows : c₁.Follows p a inputs input)
    (hstep : ∀ e s, c₀.step ≠ .failed e s) : c₁.Justified := by
  have htoken : ∃ token, c₀.session.peek.1 = .ok token ∧ c₀.actionOn token ≠ .error := by
    cases hstep₀ : c₀.step with
    | next c₀' =>
      cases (effect_of_step hstep₀).1 with
      | shift token u _ hpeek haction => exact ⟨token, hpeek, by simp [haction]⟩
      | reduceByDefault => grind [h.default?_eq_none]
      | reduce rule token _ hpeek haction => exact ⟨token, hpeek, by simp [haction]⟩
    | accepted tree s =>
      obtain ⟨token, f, -, hpeek, haction, -⟩ := accepted_of_step hstep₀
      exact ⟨token, hpeek, by simp [haction]⟩
    | failed e s => exact absurd hstep₀ (hstep e s)
  obtain ⟨token, hpeek, hne⟩ := htoken
  intro rule hdefault
  have hpeek₁ : c₁.session.peek.1 = .ok token := h.sees.1.trans hpeek
  obtain ⟨st, hs⟩ := hfollows.exists_state ha
  have haction := (hfollows.serves.default hs hdefault).2 _ (hfollows.lt_of_peek hpeek₁)
  exact ⟨token, hpeek₁, haction.resolve_left fun herror => hne (h.actionOn_eq.symm.trans herror)⟩

/-- **A run with justified default reductions is a run without them.** -/
theorem run {limit : Nat} {tree₁ : Tree} {s₁ : Session} (h : c₁.Mirrors c₀)
    (hjustified : ∀ c ∈ c₁.trace limit, c.Justified) (hrun : c₁.run limit = (.ok tree₁, s₁)) :
    ∃ tree₀ s₀, c₀.run limit = (.ok tree₀, s₀) ∧ tree₁.eraseSpans = tree₀.eraseSpans ∧
      s₁.Alike s₀ ∧ c₁.shifted limit = c₀.shifted limit := by
  induction limit generalizing c₁ c₀ with
  | zero => cases hrun
  | succ n ih =>
    obtain ⟨m, hm, ⟨c₁', hstep₁, hrun'⟩ | hstep₁⟩ := run_eq_ok hrun
    · obtain rfl := Nat.succ.inj hm
      rw [trace, hstep₁] at hjustified
      obtain ⟨c₀', hstep₀, hmirrors, htaken⟩ :=
        h.next (hjustified c₁ (List.mem_cons_self ..)) hstep₁
      obtain ⟨tree₀, s₀, hrun₀, htree, halike, hshifted⟩ :=
        ih hmirrors (fun c hc => hjustified c (List.mem_cons_of_mem c₁ hc)) hrun'
      refine ⟨tree₀, s₀, (run_of_next hstep₀).trans hrun₀, htree, halike, ?_⟩
      rw [shifted_of_next hstep₁, shifted_of_next hstep₀, htaken, hshifted]
    · obtain ⟨tree₀, s₀, hstep₀, htree, halike⟩ := h.accepted hstep₁
      refine ⟨tree₀, s₀, run_of_accepted hstep₀, htree, halike, ?_⟩
      rw [shifted_of_accepted hstep₁, shifted_of_accepted hstep₀]

/-- **Whatever is accepted without default reductions is accepted with them.** -/
theorem exists_run {p : Productions} {a : Automaton} {inputs : List Input} {input : Nat}
    (hp : p.Proper) (ha : a.Proper p) {limit : Nat} {tree₀ : Tree} {s₀ : Session}
    (h : c₁.Mirrors c₀) (hfollows : c₁.Follows p a inputs input)
    (hrun : c₀.run limit = (.ok tree₀, s₀)) : ∃ tree₁ s₁, c₁.run limit = (.ok tree₁, s₁) := by
  induction limit generalizing c₁ c₀ with
  | zero => cases hrun
  | succ n ih =>
    obtain ⟨m, hm, ⟨c₀', hstep₀, hrun'⟩ | hstep₀⟩ := run_eq_ok hrun
    · obtain rfl := Nat.succ.inj hm
      have hjustified := h.justified ha hfollows (by simp [hstep₀])
      obtain ⟨c₁', hstep₁⟩ := h.exists_next hjustified hstep₀
      obtain ⟨c₀'', hstep₀', hmirrors, -⟩ := h.next hjustified hstep₁
      obtain rfl := StepResult.next.inj (hstep₀.symm.trans hstep₀')
      obtain ⟨tree₁, s₁, hrun₁⟩ := ih hmirrors (hfollows.step hp ha hstep₁) hrun'
      exact ⟨tree₁, s₁, (run_of_next hstep₁).trans hrun₁⟩
    · have hjustified := h.justified ha hfollows (by simp [hstep₀])
      obtain ⟨tree₁, s₁, hstep₁⟩ := h.exists_accepted hjustified hstep₀
      exact ⟨tree₁, s₁, run_of_accepted hstep₁⟩

end Config.Mirrors

/-! ## 4. Parses -/

section Parses

variable {g : Grammar} {debug₁ debug₀ : Bool} {t₁ t₀ : ParseTable} {ds₁ ds₀ : List Diagnostic}
  {s₁ s₀ : Session}

/-- Parses of the same tokens begin together. -/
theorem mirrors_of_build
    (h₁ : Lr.build g { debug := debug₁, defaultReductions := true } = .ok (t₁, ds₁))
    (h₀ : Lr.build g { debug := debug₀, defaultReductions := false } = .ok (t₀, ds₀))
    (hs₁ : s₁.Reached t₁) (hs₀ : s₀.Reached t₀) (hscanner : s₁.scanner = s₀.scanner)
    (hlookahead : s₁.lookahead = s₀.lookahead) (start : Nat) :
    Config.Mirrors ⟨s₁, start, []⟩ ⟨s₀, start, []⟩ := by
  obtain ⟨htable₁, -⟩ := hs₁.keeps
  obtain ⟨htable₀, -⟩ := hs₀.keeps
  have htables : ∃ defaultReduce debug, s₁.table = { s₀.table with defaultReduce, debug } := by
    rw [htable₁, htable₀]
    exact Lr.build_options h₁ h₀
  have halike : s₁.Alike s₀ := by
    obtain ⟨defaultReduce, debug, htable⟩ := htables
    exact ⟨by rw [htable], hscanner, hlookahead⟩
  refine ⟨htables, ?_, rfl, rfl, halike.peek⟩
  intro s
  rw [show (⟨s₀, start, []⟩ : Config).session.table = t₀ from htable₀]
  exact Lr.defaultReduce_of_build h₀ rfl s

/-- **Default reductions change neither the language nor the trees.**  With the tables of a grammar
that have default reductions, a parse returns a tree if and only if it does with those that have
none.  Up to spans it is the same tree, over the same tokens, and the same token is kept for the
next parse.  In such a parse every default reduction is what the other tables do before the token
that follows. -/
theorem parse_default_reductions (hg : g.Frozen)
    (h₁ : Lr.build g { debug := debug₁, defaultReductions := true } = .ok (t₁, ds₁))
    (h₀ : Lr.build g { debug := debug₀, defaultReductions := false } = .ok (t₀, ds₀))
    (hs₁ : s₁.Reached t₁) (hs₀ : s₀.Reached t₀) (hscanner : s₁.scanner = s₀.scanner)
    (hlookahead : s₁.lookahead = s₀.lookahead) (input limit : Nat) :
    ((∃ tree₁, (s₁.parse input limit).1 = .ok tree₁) ↔
        ∃ tree₀, (s₀.parse input limit).1 = .ok tree₀) ∧
      ∀ tree₁ tree₀, (s₁.parse input limit).1 = .ok tree₁ → (s₀.parse input limit).1 = .ok tree₀ →
        tree₁.eraseSpans = tree₀.eraseSpans ∧
        s₁.shifted input limit = s₀.shifted input limit ∧
        (s₁.parse input limit).2.scanner = (s₀.parse input limit).2.scanner ∧
        (s₁.parse input limit).2.lookahead = (s₀.parse input limit).2.lookahead ∧
        ∀ c ∈ s₁.trace input limit, ∀ rule, c.default? = some rule →
          ∃ token, c.session.peek.1 = .ok token ∧
            t₀.action c.state token.symbol = .reduce rule := by
  have hp := Productions.proper_ofGrammar hg.wellFormed
  have ha : (Lr.automatonOf g).Proper (.ofGrammar g) := Automaton.proper_ofProductions hp
  have hmirrors := mirrors_of_build h₁ h₀ hs₁ hs₀ hscanner hlookahead
  obtain ⟨rfl, hkeeps⟩ := hs₁.keeps
  obtain ⟨rfl, -⟩ := hs₀.keeps
  obtain ⟨defaultReduce, debug, htable⟩ := Lr.build_options h₁ h₀
  have hserves := Lr.serves_of_build h₁
  have hstarts : s₁.table.startStates = s₀.table.startStates := by rw [htable]
  have hfollows : ∀ start, s₁.table.startStates[input]? = some start →
      Config.Follows (.ofGrammar g) (Lr.automatonOf g) g.inputList input ⟨s₁, start, []⟩ :=
    fun start hstart => ⟨hserves, hkeeps, (hserves.starts input).symm.trans hstart, .nil⟩
  -- a parse that returns a tree with default reductions is done without them too
  have hrun : ∀ tree₁, (s₁.parse input limit).1 = .ok tree₁ →
      (∀ c ∈ s₁.trace input limit, c.Justified) ∧ ∃ tree₀ s,
        s₀.parse input limit = (.ok tree₀, s) ∧ tree₁.eraseSpans = tree₀.eraseSpans ∧
          (s₁.parse input limit).2.Alike s ∧ s₁.shifted input limit = s₀.shifted input limit := by
    intro tree₁ htree₁
    obtain ⟨start, hstart⟩ := Session.exists_start htree₁
    have hstart₀ := hstarts ▸ hstart
    rw [Session.shifted, Session.shifted, Session.parse_eq hstart₀, Session.trace_eq hstart,
      Session.trace_eq hstart₀]
    rw [Session.parse_eq hstart] at htree₁ ⊢
    have hjustified := ((hfollows start hstart).justified_of_run hp ha (Prod.ext htree₁ rfl)).2
    exact ⟨hjustified, (hmirrors start).run hjustified (Prod.ext htree₁ rfl)⟩
  refine ⟨⟨?_, ?_⟩, ?_⟩
  · rintro ⟨tree₁, htree₁⟩
    obtain ⟨-, tree₀, s, hparse, -⟩ := hrun tree₁ htree₁
    exact ⟨tree₀, by rw [hparse]⟩
  · rintro ⟨tree₀, htree₀⟩
    obtain ⟨start, hstart₀⟩ := Session.exists_start htree₀
    have hstart := hstarts ▸ hstart₀
    rw [Session.parse_eq hstart₀] at htree₀
    obtain ⟨tree₁, s, hrun₁⟩ :=
      (hmirrors start).exists_run hp ha (hfollows start hstart) (Prod.ext htree₀ rfl)
    exact ⟨tree₁, by rw [Session.parse_eq hstart, hrun₁]⟩
  · intro tree₁ tree₀ htree₁ htree₀
    obtain ⟨hjustified, tree, s, hparse, hspans, halike, hshifted⟩ := hrun tree₁ htree₁
    rw [hparse] at htree₀ ⊢
    obtain rfl := Except.ok.inj htree₀
    refine ⟨hspans, hshifted, halike.scanner, halike.lookahead, ?_⟩
    intro c hc rule hdefault
    obtain ⟨token, hpeek, haction⟩ := hjustified c hc rule hdefault
    rw [Config.actionOn, Session.table_of_mem_trace hc, htable] at haction
    exact ⟨token, hpeek, haction⟩

end Parses

theorem parse_default_reductions_list : ∃ tree₁ tree₀,
    ((Session.new (listTable true) (itemScanner "a b")).parse 0 8).1 = .ok tree₁ ∧
      ((Session.new (listTable false) (itemScanner "a b")).parse 0 8).1 = .ok tree₀ ∧
      tree₁.eraseSpans = tree₀.eraseSpans ∧
      ∃ c ∈ (Session.new (listTable true) (itemScanner "a b")).trace 0 8,
        ∃ rule, c.default? = some rule ∧
          ∃ token, c.session.peek.1 = .ok token ∧
            (listTable false).action c.state token.symbol = .reduce rule := by
  obtain ⟨ds₁, h₁⟩ := build_listTable true
  obtain ⟨ds₀, h₀⟩ := build_listTable false
  obtain ⟨hiff, hsame⟩ := parse_default_reductions ⟨listDraft, listDraft_reached, rfl⟩ h₁ h₀
    (.new (itemScanner "a b")) (.new (itemScanner "a b")) rfl rfl 0 8
  have hsome :
      ((Session.new (listTable true) (itemScanner "a b")).parse 0 8).1.toOption.isSome := by
    decide +kernel
  have hdefault : ((Session.new (listTable true) (itemScanner "a b")).trace 0 8).any
      (·.default?.isSome) := by
    decide +kernel
  obtain ⟨c, hc, hrule⟩ := List.any_eq_true.mp hdefault
  obtain ⟨rule, hrule⟩ := Option.isSome_iff_exists.mp hrule
  cases htree₁ : ((Session.new (listTable true) (itemScanner "a b")).parse 0 8).1 with
  | error e =>
    rw [htree₁] at hsome
    cases hsome
  | ok tree₁ =>
    obtain ⟨tree₀, htree₀⟩ := hiff.mp ⟨tree₁, htree₁⟩
    obtain ⟨hspans, -, -, -, hplain⟩ := hsame tree₁ tree₀ htree₁ htree₀
    exact ⟨tree₁, tree₀, rfl, htree₀, hspans, c, hc, rule, hrule, hplain c hc rule hrule⟩

end GrammarTables.Parse
