import GrammarTables.Proofs.Lr.Table
import GrammarTables.Proofs.Lr.Viable
import GrammarTables.Proofs.Parse.Step
/-
# Parses are derivations

The states on the stack follow the automaton along the symbols of the trees (`Stacked`), whatever
the tables choose where there is a choice (`Config.Follows.step`).  So a rule is reduced only when
its right side is on top of the stack, and an input is accepted only when the stack holds its target
alone, and only the input that the parse was started for.  The trees are derivation trees, and their
leaves are the tokens that were taken.
-/

namespace GrammarTables.Parse

open Scan (Token Scanner)
open Lr (ParseTable Productions Automaton ItemState Item Path Ahead Completes)

/-! ## 1. Derivation trees -/

namespace Tree

/-- **A derivation tree of a grammar:** leaves are terminals, branches are rules. -/
inductive Derives (g : Grammar) : Tree → Prop
  | leaf {token : Token} : token.symbol < g.terminals → Derives g (.leaf token)
  | branch {rule symbol : Nat} {span : Span} {children : List Tree} {r : Rule} :
      g.ruleList[rule]? = some r → symbol = r.left →
      children.map Tree.symbol = r.right.map (·.target) → (∀ child ∈ children, Derives g child) →
      Derives g (.branch rule symbol span children)

theorem preorderAll_eq (children : List Tree) :
    preorderAll children = children.flatMap preorder := by
  induction children with
  | nil => rw [preorderAll]; rfl
  | cons t ts ih => rw [preorderAll, ih]; rfl

@[simp]
theorem leaves_leaf (token : Token) : (Tree.leaf token).leaves = [token] := by
  simp [leaves, preorder]

@[simp]
theorem leaves_branch (rule symbol : Nat) (span : Span) (children : List Tree) :
    (Tree.branch rule symbol span children).leaves = children.flatMap leaves := by
  rw [leaves, preorder, preorderAll_eq, List.filterMap_cons_none rfl, List.filterMap_flatMap]
  rfl

end Tree

/-! ## 2. The stack -/

/-- **The states of a stack follow the automaton** along the symbols of its trees. -/
inductive Stacked (a : Automaton) (start : Nat) : List Frame → Prop
  | nil : Stacked a start []
  | cons {f : Frame} {rest : List Frame} {st : ItemState} : Stacked a start rest →
      a.states[stateAbove start rest]? = some st → st.goto? f.tree.symbol = some f.state →
      Stacked a start (f :: rest)

/-- The symbols of a stack, the top first. -/
def symbolsOf (frames : List Frame) : List Nat := frames.map (·.tree.symbol)

namespace Stacked

variable {a : Automaton} {start : Nat} {frames : List Frame}

theorem path (h : Stacked a start frames) :
    Path a start (symbolsOf frames) (stateAbove start frames) := by
  induction h with
  | nil => exact .nil
  | cons _ hs hgoto ih => exact .cons ih hs hgoto

theorem drop (h : Stacked a start frames) (n : Nat) : Stacked a start (frames.drop n) := by
  induction n generalizing frames with
  | zero => exact h
  | succ n ih =>
    cases h with
    | nil => exact .nil
    | cons h _ _ => exact ih h

end Stacked

/-- A parse of an input whose stack follows the automaton. -/
structure Config.Follows (p : Productions) (a : Automaton) (inputs : List Input) (input : Nat)
    (c : Config) : Prop where
  serves : c.session.table.Serves p a inputs
  keeps : c.session.Keeps
  start : a.starts[input]? = some c.start
  stacked : Stacked a c.start c.stack

namespace Config.Follows

variable {p : Productions} {a : Automaton} {inputs : List Input} {input : Nat} {c c' : Config}

theorem exists_state (ha : a.Proper p) (h : c.Follows p a inputs input) :
    ∃ st, a.states[c.state]? = some st :=
  h.stacked.path.exists_state ha h.start

theorem lt_of_peek (h : c.Follows p a inputs input) {token : Token}
    (hpeek : c.session.peek.1 = .ok token) : token.symbol < p.terminals :=
  h.serves.terminals ▸ h.keeps.lt_of_peek hpeek

/-- **A reduction finds the right side of its rule on top of the stack.** -/
theorem of_reduce (hp : p.Proper) (ha : a.Proper p) (h : c.Follows p a inputs input)
    {x rule : Nat} (hx : x < p.terminals)
    (haction : c.session.table.action c.state x = .reduce rule) :
    rule < p.rules ∧ c.arity rule = (p.rightOf rule).length ∧
      symbolsOf (c.stack.take (c.arity rule)).reverse = p.rightOf rule := by
  obtain ⟨st, hs⟩ := h.exists_state ha
  obtain ⟨hlt, item, hahead, hnext, rfl⟩ := h.serves.of_reduce hs hx haction
  have harity : c.arity item.rule = (p.rightOf item.rule).length := h.serves.ruleLength hlt
  obtain ⟨-, hright, -⟩ :=
    h.stacked.path.of_complete hp ha h.start hs (hahead.mem_items hp ha hs) hnext
  refine ⟨hlt, harity, ?_⟩
  rw [symbolsOf, List.map_reverse, List.map_take, harity]
  exact hright

/-- A rule that is reduced by default is reduced before some terminal. -/
theorem exists_of_default (ha : a.Proper p) (h : c.Follows p a inputs input) {rule : Nat}
    (hdefault : c.default? = some rule) :
    ∃ x < p.terminals, c.session.table.action c.state x = .reduce rule := by
  obtain ⟨st, hs⟩ := h.exists_state ha
  exact (h.serves.default hs hdefault).1

/-- A rule that a step reduces, by default or not, is reduced before some terminal. -/
theorem of_reduced (hp : p.Proper) (ha : a.Proper p) (h : c.Follows p a inputs input)
    {x rule : Nat} (hx : x < p.terminals)
    (haction : c.session.table.action c.state x = .reduce rule)
    (hstack : c.Reduced rule c'.stack) (hstart : c'.start = c.start) :
    Stacked a c'.start c'.stack := by
  obtain ⟨hlt, -, -⟩ := h.of_reduce hp ha hx haction
  obtain ⟨-, span, next, hafter, hstack⟩ := hstack
  have hbelow := h.stacked.drop (c.arity rule)
  obtain ⟨st, hs⟩ := hbelow.path.exists_state ha h.start
  have hleft := h.serves.ruleLeft hlt
  rw [Config.after?, hleft] at hafter
  rw [hstart, hstack]
  refine .cons hbelow hs ?_
  rw [Tree.symbol, hleft, ← h.serves.goto hs (hp.left hlt).1 (hp.left hlt).2]
  exact hafter

/-- **A step keeps the stack on the automaton.** -/
theorem step (hp : p.Proper) (ha : a.Proper p) (h : c.Follows p a inputs input)
    (hstep : c.step = .next c') : c'.Follows p a inputs input := by
  obtain ⟨heffect, hstart, htable⟩ := effect_of_step hstep
  refine ⟨htable ▸ h.serves, keeps_of_step hstep h.keeps, hstart ▸ h.start, ?_⟩
  cases heffect with
  | shift token u _ hpeek haction hstack _ _ =>
    obtain ⟨st, hs⟩ := h.exists_state ha
    rw [hstart, hstack]
    exact .cons h.stacked hs (h.serves.of_shift hs (h.lt_of_peek hpeek) haction)
  | reduceByDefault rule hdefault hstack _ =>
    obtain ⟨x, hx, haction⟩ := h.exists_of_default ha hdefault
    exact h.of_reduced hp ha hx haction hstack hstart
  | reduce rule token _ hpeek haction hstack _ =>
    exact h.of_reduced hp ha (h.lt_of_peek hpeek) haction hstack hstart

/-- **An acceptance is that of the input of the parse**, whose target is alone on the stack. -/
theorem of_accept (hp : p.Proper) (ha : a.Proper p) (h : c.Follows p a inputs input)
    {x : Nat} (hx : x < p.terminals) (haction : c.session.table.action c.state x = .accept) :
    Completes p a inputs c.state x (p.rules + input) ∧
      symbolsOf c.stack = p.rightOf (p.rules + input) := by
  obtain ⟨st, hs⟩ := h.exists_state ha
  obtain ⟨r, hge, item, hahead, hnext, rfl⟩ := h.serves.of_accept hs hx haction
  have hmem := hahead.mem_items hp ha hs
  have hlt := (Lr.valid_of_mem_closure hp (ha.kernel hs).2 item (ha.items hs ▸ hmem)).1
  obtain ⟨-, hright, hinput⟩ := h.stacked.path.of_complete hp ha h.start hs hmem hnext
  obtain ⟨hrule, hlength⟩ := hinput hge
  obtain ⟨y, hy, -⟩ := hp.right_input hge hlt
  refine ⟨⟨item, hahead, hnext, hrule⟩, ?_⟩
  rw [← hlength, List.take_length, hy] at hright
  rw [← hrule, hy]
  exact List.reverse_eq_cons_iff.mp hright

end Config.Follows

/-! ## 3. Runs -/

/-- The tokens at the leaves of a stack, from left to right. -/
def leavesOf (frames : List Frame) : List Token := frames.reverse.flatMap (·.tree.leaves)

theorem leavesOf_cons (f : Frame) (rest : List Frame) :
    leavesOf (f :: rest) = leavesOf rest ++ f.tree.leaves := by
  simp [leavesOf]

theorem leavesOf_take_drop (frames : List Frame) (n : Nat) :
    leavesOf (frames.drop n) ++ leavesOf (frames.take n) = leavesOf frames := by
  rw [leavesOf, leavesOf, ← List.flatMap_append, ← List.reverse_append, List.take_append_drop]
  rfl

namespace Config

variable {c c' : Config}

theorem Reduced.leavesOf_eq {rule : Nat} {stack : List Frame} (h : c.Reduced rule stack) :
    leavesOf stack = leavesOf c.stack := by
  obtain ⟨-, span, next, -, rfl⟩ := h
  rw [leavesOf_cons, Tree.leaves_branch, List.flatMap_map,
    ← leavesOf_take_drop c.stack (c.arity rule)]
  rfl

/-- The leaves of the stack grow by the token that a step takes. -/
theorem leavesOf_step (h : c.step = .next c') :
    leavesOf c'.stack = leavesOf c.stack ++ c.taken?.toList := by
  cases (effect_of_step h).1 with
  | shift token u hdefault hpeek haction hstack _ _ =>
    rw [taken?_of_shift hdefault hpeek haction, hstack, leavesOf_cons, Tree.leaves_leaf]
    rfl
  | reduceByDefault rule hdefault hstack _ =>
    rw [taken?_of_default hdefault, hstack.leavesOf_eq]
    exact (List.append_nil _).symm
  | reduce rule token hdefault hpeek haction hstack _ =>
    rw [taken?_of_reduce hdefault hpeek haction, hstack.leavesOf_eq]
    exact (List.append_nil _).symm

end Config

section Grammar

variable {g : Grammar} {input : Nat}

/-- A parse with the tables of a grammar, on whose stack there are derivation trees. -/
structure Config.Sound (g : Grammar) (input : Nat) (c : Config) : Prop where
  follows : c.Follows (.ofGrammar g) (Lr.automatonOf g) g.inputList input
  derives : ∀ f ∈ c.stack, f.tree.Derives g

/-- Reducing builds a derivation tree. -/
theorem Config.Sound.of_reduced (hg : g.WellFormed) {c c' : Config} (h : c.Sound g input)
    {x rule : Nat} (hx : x < g.terminals)
    (haction : c.session.table.action c.state x = .reduce rule)
    (hstack : c.Reduced rule c'.stack) : ∀ f ∈ c'.stack, f.tree.Derives g := by
  have hp := Productions.proper_ofGrammar hg
  obtain ⟨hlt, harity, hright⟩ :=
    h.follows.of_reduce hp (Automaton.proper_ofProductions hp) hx haction
  obtain ⟨-, span, next, -, hstack⟩ := hstack
  have hrule : g.ruleList[rule]? = some _ := List.getElem?_eq_getElem hlt
  intro f hf
  rw [hstack] at hf
  rcases List.mem_cons.mp hf with rfl | hf
  · refine .branch hrule ?_ ?_ ?_
    · rw [h.follows.serves.ruleLeft hlt, Productions.leftOf_rule g hrule]
    · rw [← Productions.rightOf_rule g hrule, ← hright, List.map_map]
      rfl
    · intro child hchild
      obtain ⟨f, hf, rfl⟩ := List.mem_map.mp hchild
      exact h.derives f (List.mem_of_mem_take (List.mem_reverse.mp hf))
  · exact h.derives f (List.mem_of_mem_drop hf)

/-- **A step of a parse** keeps derivation trees on the stack. -/
theorem Config.Sound.step (hg : g.WellFormed) {c c' : Config} (h : c.Sound g input)
    (hstep : c.step = .next c') : c'.Sound g input := by
  have hp := Productions.proper_ofGrammar hg
  have ha := Automaton.proper_ofProductions hp
  refine ⟨h.follows.step hp ha hstep, ?_⟩
  cases (effect_of_step hstep).1 with
  | shift token u hdefault hpeek haction hstack _ _ =>
    intro f hf
    rw [hstack] at hf
    rcases List.mem_cons.mp hf with rfl | hf
    · exact .leaf (h.follows.lt_of_peek hpeek)
    · exact h.derives f hf
  | reduceByDefault rule hdefault hstack _ =>
    obtain ⟨x, hx, haction⟩ := h.follows.exists_of_default ha hdefault
    exact h.of_reduced hg hx haction hstack
  | reduce rule token hdefault hpeek haction hstack _ =>
    exact h.of_reduced hg (h.follows.lt_of_peek hpeek) haction hstack

/-- **A run that returns a tree** returns a derivation tree of the input, over the leaves on the
stack and the tokens taken. -/
theorem Config.Sound.run (hg : g.WellFormed) {limit : Nat} {c : Config} (h : c.Sound g input)
    {tree : Tree} {s : Session} (hrun : c.run limit = (.ok tree, s)) :
    [tree.symbol] = (Productions.ofGrammar g).rightOf (g.ruleList.length + input) ∧
      tree.Derives g ∧ tree.leaves = leavesOf c.stack ++ c.shifted limit := by
  induction limit generalizing c with
  | zero => cases hrun
  | succ n ih =>
    obtain ⟨m, hm, ⟨c', hstep, hrun'⟩ | haccepted⟩ := run_eq_ok hrun
    · obtain rfl := Nat.succ.inj hm
      obtain ⟨hroot, hderives, htree⟩ := ih (h.step hg hstep) hrun'
      refine ⟨hroot, hderives, ?_⟩
      rw [htree, leavesOf_step hstep, shifted_of_next hstep, List.append_assoc]
    · have hp := Productions.proper_ofGrammar hg
      rw [shifted_of_accepted haccepted, List.append_nil]
      obtain ⟨token, f, -, hpeek, haction, hstack, rfl, -⟩ := accepted_of_step haccepted
      obtain ⟨-, hroot⟩ := h.follows.of_accept hp (Automaton.proper_ofProductions hp)
        (h.follows.lt_of_peek hpeek) haction
      rw [hstack] at hroot
      refine ⟨hroot, h.derives f (hstack ▸ List.mem_singleton.mpr rfl), ?_⟩
      rw [hstack]
      simp [leavesOf]

end Grammar

/-! ## 4. Parses -/

/-- **Whatever a parse returns is a derivation tree of the input it was started for**, and its
leaves are the tokens taken.  This holds for all grammars, also where conflicts were settled, for
all priorities, with and without default reductions, and for whatever the scanner supplies. -/
theorem parse_derives {g : Grammar} (hg : g.Frozen) {options : Lr.ParseOptions} {t : ParseTable}
    {ds : List Diagnostic} (hbuild : Lr.build g options = .ok (t, ds)) {s : Session}
    (hs : s.Reached t) {input limit : Nat} {tree : Tree}
    (h : (s.parse input limit).1 = .ok tree) :
    ∃ i, g.inputList[input]? = some i ∧ tree.symbol = i.target ∧ tree.Derives g ∧
      tree.leaves = s.shifted input limit := by
  obtain ⟨rfl, hkeeps⟩ := hs.keeps
  have hserves := Lr.serves_of_build hbuild
  have hp := Productions.proper_ofGrammar hg.wellFormed
  have ha := Automaton.proper_ofProductions hp
  obtain ⟨start, hstart⟩ := Session.exists_start h
  have hstart' := (hserves.starts input).symm.trans hstart
  have hsound : Config.Sound g input ⟨s, start, []⟩ := by
    refine ⟨⟨hserves, hkeeps, hstart', .nil⟩, ?_⟩
    intro f hf
    cases hf
  obtain ⟨hroot, hderives, hleaves⟩ :=
    hsound.run hg.wellFormed (Prod.ext ((Session.parse_eq hstart limit) ▸ h) rfl)
  have hlt : input < g.inputList.length := by
    have hlength := (List.getElem?_eq_some_iff.mp hstart').1
    rw [show (Lr.automatonOf g).starts.length = _ from ha.length_starts,
      Productions.size_ofGrammar] at hlength
    exact Nat.lt_of_lt_of_eq hlength (Nat.add_sub_cancel_left ..)
  have hi : g.inputList[input]? = some _ := List.getElem?_eq_getElem hlt
  rw [Productions.rightOf_input g hi] at hroot
  refine ⟨_, hi, (List.cons.inj hroot).1, hderives, ?_⟩
  rw [hleaves, Session.shifted, Session.trace_eq hstart]
  rfl

/-! ## 5. A grammar -/

/-- A grammar of lists of items, with layout between the items. -/
def listDraft : Draft :=
  { stamp := 0
    symbols := #[{ index := 0, name := eoiName, kind := .terminal },
      { index := 1, name := "item", kind := .terminal },
      { index := 2, name := "list", kind := .nonterminal },
      { index := 3, name := "space", kind := .layout }]
    rules := #[{ left := 2, right := [{ target := 1 }] },
      { left := 2, right := [{ target := 2 }, { target := 1 }] }]
    inputs := #[{ target := 2, hasEoi := true }] }

theorem listDraft_reached : listDraft.Reached := by
  have hitem : (Draft.new 0).addTerminal "item" none none
      = .ok (⟨0, 1⟩, { Draft.new 0 with symbols := listDraft.symbols.take 2 }) := by
    with_unfolding_all rfl
  have hlist : { Draft.new 0 with symbols := listDraft.symbols.take 2 }.addNonterminal "list" none
      none = .ok (⟨0, 2⟩, { Draft.new 0 with symbols := listDraft.symbols.take 3 }) := by
    with_unfolding_all rfl
  have hspace : { Draft.new 0 with symbols := listDraft.symbols.take 3 }.addLayout "space" none none
      = .ok (⟨0, 3⟩, { listDraft with rules := #[], inputs := #[] }) := by
    with_unfolding_all rfl
  have hinput : { listDraft with rules := #[], inputs := #[] }.addInput ⟨0, 2⟩ true none
      = .ok { listDraft with rules := #[] } := rfl
  have hleft : ∀ rules, { listDraft with rules }.beginRule none ⟨0, 2⟩ none
      = .ok { left := 2, right := [] } := fun _ => rfl
  have hone : { listDraft with rules := #[] }.appendSymbol { left := 2, right := [] } ⟨0, 1⟩ none
      none = .ok { left := 2, right := [{ target := 1 }] } := rfl
  have hmore : { listDraft with rules := listDraft.rules.take 1 }.appendSymbol
      { left := 2, right := [] } ⟨0, 2⟩ none none
      = .ok { left := 2, right := [{ target := 2 }] } := rfl
  have hlast : { listDraft with rules := listDraft.rules.take 1 }.appendSymbol
      { left := 2, right := [{ target := 2 }] } ⟨0, 1⟩ none none
      = .ok { left := 2, right := [{ target := 2 }, { target := 1 }] } := rfl
  have hsymbols := ((Draft.Reached.new 0).terminal hitem).nonterminal hlist |>.layout hspace
  have hsingle := (hsymbols.input hinput).rule (.append (.begin (hleft #[])) hone)
  exact hsingle.rule (.append (.append (.begin (hleft (listDraft.rules.take 1))) hmore) hlast)

/-- A scanner that takes blanks for layout and any other character for an item. -/
def itemScanner (text : String) : Scanner :=
  .new
    { classes := 3, asciiClasses := #[], classRanges := [⟨0, 32, 2⟩, ⟨33, 1114111, 1⟩]
      states := 3, transitions := #[-2, 1, 2, -3, -3, -3, -4, -4, -4], stateMap := #[0]
      backtracking := #[], firstRule := -2, actionSymbol := #[0, 1, 3] } text

/-- The tables of the grammar. -/
def listTable (defaultReductions : Bool) : ParseTable :=
  Lr.tableOf listDraft.freeze (Lr.automatonOf listDraft.freeze) (Lr.reductionsFor listDraft.freeze)
    { defaultReductions }

theorem build_listTable (defaultReductions : Bool) :
    ∃ ds, Lr.build listDraft.freeze { defaultReductions }
      = .ok (listTable defaultReductions, ds) := by
  unfold Lr.build
  rw [if_neg (by decide), if_neg (by decide +kernel)]
  exact ⟨_, rfl⟩

theorem parse_derives_list : ∃ tree,
    ((Session.new (listTable true) (itemScanner "a b")).parse 0 8).1 = .ok tree ∧
      tree.symbol = 2 ∧ tree.Derives listDraft.freeze ∧
      tree.leaves = (Session.new (listTable true) (itemScanner "a b")).shifted 0 8 := by
  have hsome :
      ((Session.new (listTable true) (itemScanner "a b")).parse 0 8).1.toOption.isSome := by
    decide +kernel
  obtain ⟨ds, hbuild⟩ := build_listTable true
  cases hparse : ((Session.new (listTable true) (itemScanner "a b")).parse 0 8).1 with
  | error e =>
    rw [hparse] at hsome
    cases hsome
  | ok tree =>
    obtain ⟨i, hi, hroot, hrest⟩ :=
      parse_derives ⟨listDraft, listDraft_reached, rfl⟩ hbuild (.new _) hparse
    have hinput : listDraft.freeze.inputList[0]? = some { target := 2, hasEoi := true } := by
      decide +kernel
    obtain rfl := Option.some.inj (hi.symm.trans hinput)
    exact ⟨tree, rfl, hroot, hrest⟩

end GrammarTables.Parse
