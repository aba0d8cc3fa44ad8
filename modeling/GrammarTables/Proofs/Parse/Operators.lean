import GrammarTables.Proofs.Lr.Operators
import GrammarTables.Proofs.Parse.Safety
/-
# Operators are grouped as declared

With the tables of a grammar of binary operators, the machine keeps a stack of operands, each with
an operator after it that waits for its right operand (`Pending`).  An operand on top that has an
operator itself fits on both sides: below the operator that waits, and before the one that comes
next.  Before the next operator the machine reduces as long as the operators that wait are grouped
first, then it shifts (`Config.Reads.operator`); before the end of the input it reduces all of them
(`Config.Reads.finish`).

So a sequence of atoms with operators in between is parsed, and every operator of the tree has
operands with operators that may stand there (`parse_operators`).
-/

namespace GrammarTables.Parse

open Scan (Token Scanner)
open Lr (ParseTable Productions Automaton Path BeforeOperand)

/-! ## 1. Trees of operators -/

namespace Tree

/-- The operator of a tree with two operands. -/
def operator? : Tree → Option Nat
  | .branch _ _ _ [_, .leaf op, _] => some op.symbol
  | _ => none

/-- **The operators of a tree are grouped as declared**: those of the operands of each operator may
stand there. -/
def Grouped (g : Grammar) (tree : Tree) : Prop :=
  ∀ {rule symbol : Nat} {span : Span} {left right : Tree} {op : Token},
    .branch rule symbol span [left, .leaf op, right] ∈ tree.preorder →
      (∀ q, left.operator? = some q → g.GroupsLeft op.symbol q) ∧
        ∀ q, right.operator? = some q → g.GroupsRight op.symbol q

variable {g : Grammar} {rule symbol : Nat} {span : Span}

theorem mem_preorder_branch {tree : Tree} {children : List Tree} :
    tree ∈ (Tree.branch rule symbol span children).preorder ↔
      tree = .branch rule symbol span children ∨ ∃ child ∈ children, tree ∈ child.preorder := by
  rw [preorder, List.mem_cons, preorderAll_eq, List.mem_flatMap]

theorem grouped_leaf (token : Token) : (Tree.leaf token).Grouped g := by
  intro rule symbol span left right op h
  simp [preorder] at h

/-- An atom is grouped. -/
theorem grouped_atom (token : Token) : (Tree.branch rule symbol span [.leaf token]).Grouped g := by
  intro rule' symbol' span' left right op h
  rcases mem_preorder_branch.mp h with heq | ⟨child, hchild, hin⟩
  · simp at heq
  · obtain rfl := List.mem_singleton.mp hchild
    exact grouped_leaf token hin

/-- An operator whose operands may stand there. -/
theorem grouped_branch {left right : Tree} {op : Token} (hleft : left.Grouped g)
    (hright : right.Grouped g) (hl : ∀ q, left.operator? = some q → g.GroupsLeft op.symbol q)
    (hr : ∀ q, right.operator? = some q → g.GroupsRight op.symbol q) :
    (Tree.branch rule symbol span [left, .leaf op, right]).Grouped g := by
  intro rule' symbol' span' left' right' op' h
  rcases mem_preorder_branch.mp h with heq | ⟨child, hchild, hin⟩
  · obtain ⟨rfl, rfl, rfl⟩ : left' = left ∧ op' = op ∧ right' = right := by
      simpa using (Tree.branch.inj heq).2.2.2
    exact ⟨hl, hr⟩
  · simp only [List.mem_cons, List.not_mem_nil, or_false] at hchild
    rcases hchild with rfl | rfl | rfl
    · exact hleft hin
    · exact grouped_leaf op hin
    · exact hright hin

end Tree

/-! ## 2. Operators that wait -/

/-- **The stack where an operand is expected**: operands, each with an operator after it.  Each
operator may stand in the right operand of the one before. -/
inductive Pending (g : Grammar) (e : Nat) (ops : List Nat) : List Frame → Prop
  | nil : Pending g e ops []
  | cons {frames : List Frame} {left : Frame} {op : Token} {state : Nat} :
      Pending g e ops frames → op.symbol ∈ ops → left.tree.symbol = e → left.tree.Grouped g →
      (∀ q, left.tree.operator? = some q → g.GroupsLeft op.symbol q) →
      (∀ q ∈ (symbolsOf frames).head?, g.GroupsRight q op.symbol) →
      Pending g e ops (⟨.leaf op, state⟩ :: left :: frames)

theorem symbolsOf_cons (f : Frame) (frames : List Frame) :
    symbolsOf (f :: frames) = f.tree.symbol :: symbolsOf frames :=
  rfl

theorem Pending.before {g : Grammar} {e : Nat} {ops : List Nat} {frames : List Frame}
    (h : Pending g e ops frames) : BeforeOperand e ops (symbolsOf frames) := by
  induction h with
  | nil => exact .nil
  | @cons frames left op state _ hop hleft _ _ _ ih =>
    rw [symbolsOf_cons, symbolsOf_cons, hleft]
    exact .cons hop ih

/-- **An operand above operators that wait.** -/
structure Operand (g : Grammar) (e : Nat) (f : Frame) (frames : List Frame) : Prop where
  symbol : f.tree.symbol = e
  grouped : f.tree.Grouped g
  right : ∀ q ∈ (symbolsOf frames).head?, ∀ r, f.tree.operator? = some r → g.GroupsRight q r

/-! ## 3. Steps -/

/-- The machine returns a tree, if it is not stopped before. -/
def Config.Returns (c : Config) (tree : Tree) : Prop :=
  ∃ limit, ∀ n ≥ limit, (c.run n).1 = .ok tree

theorem Config.Leads.returns {c c' : Config} (h : c.Leads c') {tree : Tree}
    (h' : c'.Returns tree) : c.Returns tree := by
  obtain ⟨k, hk⟩ := h
  obtain ⟨limit, hlimit⟩ := h'
  refine ⟨k + limit, fun n hn => ?_⟩
  obtain ⟨m, rfl⟩ := Nat.exists_eq_add_of_le hn
  rw [Nat.add_assoc, hk]
  exact hlimit _ (Nat.le_add_right _ _)

/-- A parse with the tables `t` of the tokens `all`, of which `rest` are to come. -/
structure Config.Reads (g : Grammar) (t : ParseTable) (all : List Token) (c : Config)
    (rest : List Token) : Prop where
  sound : c.Sound g 0
  table : c.session.table = t
  supplies : c.session.Supplies rest
  leaves : leavesOf c.stack ++ rest = all

namespace Config.Reads

variable {g : Grammar} {t : ParseTable} {all rest : List Token} {c : Config} {token : Token}

theorem path (h : c.Reads g t all rest) :
    Path (Lr.automatonOf g) c.start (symbolsOf c.stack) c.state :=
  h.sound.follows.stacked.path

/-- **A token is shifted.** -/
theorem shift (hg : g.WellFormed) (h : c.Reads g t all (token :: rest)) {u : Nat}
    (haction : t.action c.state token.symbol = .shift u) :
    ∃ c', c.Leads c' ∧ c'.Reads g t all rest ∧ c'.stack = ⟨.leaf token, u⟩ :: c.stack := by
  have ha : (Lr.automatonOf g).Proper (.ofGrammar g) :=
    Automaton.proper_ofProductions (Productions.proper_ofGrammar hg)
  obtain ⟨c', hstep, hstack, hsupplies⟩ :=
    h.sound.follows.exists_shift ha h.supplies (h.table.symm ▸ haction)
  refine ⟨c', leads_of_step hstep, ⟨h.sound.step hg hstep, ?_, hsupplies, ?_⟩, hstack⟩
  · exact (effect_of_step hstep).2.2.trans h.table
  · rw [hstack, leavesOf_cons, Tree.leaves_leaf, List.append_assoc]
    exact h.leaves

/-- **A rule is reduced** whose right side is on top of the stack. -/
theorem reduce (hg : g.WellFormed) (h : c.Reads g t all (token :: rest)) {rule : Nat}
    (haction : t.action c.state token.symbol = .reduce rule) (top : List Frame)
    {frames : List Frame} (hstack : c.stack = top ++ frames)
    (hlength : ((Productions.ofGrammar g).rightOf rule).length = top.length) :
    ∃ c' span next, c.Leads c' ∧ c'.Reads g t all (token :: rest) ∧ rule < g.ruleList.length ∧
      c'.stack = ⟨.branch rule ((Productions.ofGrammar g).leftOf rule) span
        (top.reverse.map (·.tree)), next⟩ :: frames := by
  have hp := Productions.proper_ofGrammar hg
  have ha : (Lr.automatonOf g).Proper (.ofGrammar g) := Automaton.proper_ofProductions hp
  have hfollows := h.sound.follows
  have hlt := hfollows.lt_of_peek h.supplies.peek.1
  have haction' : c.session.table.action c.state token.symbol = .reduce rule :=
    h.table.symm ▸ haction
  obtain ⟨hrule, hreducible⟩ := hfollows.reducible hg hlt haction'
  obtain ⟨c', hstep, hreduced, hsupplies⟩ :=
    hfollows.exists_reduce ha h.supplies haction' hreducible
  have hleaves := hreduced.leavesOf_eq
  have harity : c.arity rule = top.length := (hfollows.serves.ruleLength hrule).trans hlength
  obtain ⟨-, span, next, -, hstack'⟩ := hreduced
  rw [harity, hfollows.serves.ruleLeft hrule, hstack, List.take_left, List.drop_left] at hstack'
  refine ⟨c', span, next, leads_of_step hstep, ⟨h.sound.step hg hstep, ?_, hsupplies, ?_⟩,
    hrule, hstack'⟩
  · exact (effect_of_step hstep).2.2.trans h.table
  · rw [hleaves]
    exact h.leaves

/-! ## 4. Operands and operators -/

variable {e atom : Nat} {ops : List Nat} {options : Lr.ParseOptions} {ds : List Diagnostic}

/-- **Where an operand is expected, an atom becomes one.** -/
theorem operand (hops : g.Operators e atom ops) (hg : g.WellFormed)
    (hbuild : Lr.build g options = .ok (t, ds)) {next : Token}
    (h : c.Reads g t all (token :: next :: rest)) (hatom : token.symbol = atom)
    (hnext : next.symbol = 0 ∨ next.symbol ∈ ops) {frames : List Frame} (hstack : c.stack = frames)
    (hframes : Pending g e ops frames) :
    ∃ c' f, c.Leads c' ∧ c'.Reads g t all (next :: rest) ∧ c'.stack = f :: frames ∧
      Operand g e f frames ∧ f.tree.operator? = none := by
  subst hstack hatom
  obtain ⟨u, hshift⟩ := hops.action_operand hg hbuild h.sound.follows.start hframes.before h.path
  obtain ⟨c₁, hleads₁, h₁, hstack₁⟩ := h.shift hg hshift
  have hpath := h₁.path
  rw [hstack₁] at hpath
  obtain ⟨rule, hreduce, hright⟩ :=
    hops.action_atom hg hbuild h₁.sound.follows.start hframes.before hpath hnext
  obtain ⟨c₂, span, v, hleads₂, h₂, hrule, hstack₂⟩ :=
    h₁.reduce hg hreduce [⟨.leaf token, u⟩] hstack₁ (by rw [hright]; rfl)
  refine ⟨c₂, _, hleads₁.trans hleads₂, h₂, hstack₂, ⟨?_, Tree.grouped_atom token, ?_⟩, rfl⟩
  · exact (hops.productions hg).left hrule
  · intro q _ r hr
    cases hr

/-- **An operator that waits gets its right operand.** -/
theorem reduce_operator (hops : g.Operators e atom ops) (hg : g.WellFormed)
    (h : c.Reads g t all (token :: rest)) {rule state : Nat} {f left : Frame} {op : Token}
    {frames : List Frame} (haction : t.action c.state token.symbol = .reduce rule)
    (hright : (Productions.ofGrammar g).rightOf rule = [e, op.symbol, e])
    (hstack : c.stack = f :: ⟨.leaf op, state⟩ :: left :: frames)
    (hf : Operand g e f (⟨.leaf op, state⟩ :: left :: frames)) (hleft : left.tree.Grouped g)
    (hgroups : ∀ q, left.tree.operator? = some q → g.GroupsLeft op.symbol q)
    (hwaits : ∀ q ∈ (symbolsOf frames).head?, g.GroupsRight q op.symbol) :
    ∃ c' f', c.Leads c' ∧ c'.Reads g t all (token :: rest) ∧ c'.stack = f' :: frames ∧
      Operand g e f' frames ∧ f'.tree.operator? = some op.symbol := by
  obtain ⟨c', span, next, hleads, h', hrule, hstack'⟩ :=
    h.reduce hg haction [f, ⟨.leaf op, state⟩, left] hstack (by rw [hright]; rfl)
  refine ⟨c', _, hleads, h', hstack', ⟨?_, ?_, ?_⟩, rfl⟩
  · exact (hops.productions hg).left hrule
  · exact Tree.grouped_branch hleft hf.grouped hgroups (hf.right op.symbol rfl)
  · intro q hq r hr
    obtain rfl : op.symbol = r := Option.some.inj hr
    exact hwaits q hq

/-- **After an operand, the next operator is shifted** when all operators that wait and are grouped
first have got their right operands. -/
theorem operator (hops : g.Operators e atom ops) (hg : g.WellFormed)
    (hbuild : Lr.build g options = .ok (t, ds)) (htoken : token.symbol ∈ ops) {frames : List Frame}
    (hframes : Pending g e ops frames) :
    ∀ {c : Config} {f : Frame}, c.Reads g t all (token :: rest) → c.stack = f :: frames →
      Operand g e f frames → (∀ r, f.tree.operator? = some r → g.GroupsLeft token.symbol r) →
      ∃ c', c.Leads c' ∧ c'.Reads g t all rest ∧ Pending g e ops c'.stack := by
  induction hframes with
  | nil =>
    intro c f h hstack hf hgroups
    have hpath := h.path
    rw [hstack, symbolsOf_cons, hf.symbol] at hpath
    obtain ⟨u, hshift⟩ := (hops.action_first hg hbuild h.sound.follows.start hpath).2 _ htoken
    obtain ⟨c', hleads, h', hstack'⟩ := h.shift hg hshift
    refine ⟨c', hleads, h', ?_⟩
    rw [hstack', hstack]
    exact .cons .nil htoken hf.symbol hf.grouped hgroups (fun q hq => by cases hq)
  | @cons frames left op state hframes hop hleft hgrouped hl hwaits ih =>
    intro c f h hstack hf hgroups
    have hpath := h.path
    rw [hstack, symbolsOf_cons, symbolsOf_cons, symbolsOf_cons, hf.symbol, hleft] at hpath
    obtain ⟨rule, hright, -, hcases⟩ :=
      hops.action_operator hg hbuild h.sound.follows.start hframes.before hop hpath
    rcases hcases _ htoken with ⟨hfirst, hreduce⟩ | ⟨hsecond, u, hshift⟩
    · obtain ⟨c₁, f', hleads₁, h₁, hstack₁, hf', hoperator⟩ :=
        h.reduce_operator hops hg hreduce hright hstack hf hgrouped hl hwaits
      obtain ⟨c', hleads, h', hpending⟩ := ih h₁ hstack₁ hf' fun r hr => by
        obtain rfl := Option.some.inj (hoperator.symm.trans hr)
        exact hfirst
      exact ⟨c', hleads₁.trans hleads, h', hpending⟩
    · obtain ⟨c', hleads, h', hstack'⟩ := h.shift hg hshift
      refine ⟨c', hleads, h', ?_⟩
      rw [hstack', hstack]
      refine .cons (.cons hframes hop hleft hgrouped hl hwaits) htoken hf.symbol hf.grouped hgroups ?_
      intro q hq
      obtain rfl : op.symbol = q := Option.some.inj hq
      exact hsecond

/-- **Before the end of the input, all operators that wait get their right operands**, and the tree
is accepted. -/
theorem finish (hops : g.Operators e atom ops) (hg : g.WellFormed)
    (hbuild : Lr.build g options = .ok (t, ds)) (htoken : token.symbol = 0) {frames : List Frame}
    (hframes : Pending g e ops frames) :
    ∀ {c : Config} {f : Frame}, c.Reads g t all [token] → c.stack = f :: frames →
      Operand g e f frames → ∃ tree, c.Returns tree ∧ tree.Derives g ∧ tree.symbol = e ∧
        tree.leaves ++ [token] = all ∧ tree.Grouped g := by
  have ha : (Lr.automatonOf g).Proper (.ofGrammar g) :=
    Automaton.proper_ofProductions (Productions.proper_ofGrammar hg)
  induction hframes with
  | nil =>
    intro c f h hstack hf
    have hpath := h.path
    rw [hstack, symbolsOf_cons, hf.symbol] at hpath
    have haccept : c.actionOn token = .accept := by
      rw [Config.actionOn, h.table, htoken]
      exact (hops.action_first hg hbuild h.sound.follows.start hpath).1
    obtain ⟨s, hstep⟩ := h.sound.follows.exists_accept ha h.supplies haccept hstack
    refine ⟨f.tree, ⟨1, fun n hn => ?_⟩, ?_, hf.symbol, ?_, hf.grouped⟩
    · obtain ⟨m, rfl⟩ := Nat.exists_eq_add_of_le' hn
      rw [Config.run_of_accepted hstep]
    · exact h.sound.derives f (by rw [hstack]; exact List.mem_singleton.mpr rfl)
    · have hleaves := h.leaves
      rwa [hstack, leavesOf_cons] at hleaves
  | @cons frames left op state hframes hop hleft hgrouped hl hwaits ih =>
    intro c f h hstack hf
    have hpath := h.path
    rw [hstack, symbolsOf_cons, symbolsOf_cons, symbolsOf_cons, hf.symbol, hleft] at hpath
    obtain ⟨rule, hright, hreduce, -⟩ :=
      hops.action_operator hg hbuild h.sound.follows.start hframes.before hop hpath
    obtain ⟨c₁, f', hleads, h₁, hstack₁, hf', -⟩ :=
      h.reduce_operator hops hg (htoken.symm ▸ hreduce) hright hstack hf hgrouped hl hwaits
    obtain ⟨tree, hreturns, htree⟩ := ih h₁ hstack₁ hf'
    exact ⟨tree, hleads.returns hreturns, htree⟩

end Config.Reads

/-! ## 5. Parses -/

/-- **A sequence of atoms with operators in between.** -/
inductive Alternates (atom : Nat) (ops : List Nat) : List Nat → Prop
  | atom : Alternates atom ops [atom]
  | cons {op : Nat} {w : List Nat} : op ∈ ops → Alternates atom ops w →
      Alternates atom ops (atom :: op :: w)

section Grammar

variable {g : Grammar} {e atom : Nat} {ops : List Nat} {options : Lr.ParseOptions}
  {t : ParseTable} {ds : List Diagnostic}

/-- Where an operand is expected, the rest of a sequence is parsed. -/
theorem Alternates.run (hops : g.Operators e atom ops) (hg : g.WellFormed)
    (hbuild : Lr.build g options = .ok (t, ds)) {w : List Nat} (hw : Alternates atom ops w)
    {all : List Token} {last : Token} (hlast : last.symbol = 0) :
    ∀ {c : Config} {tokens : List Token}, c.Reads g t all (tokens ++ [last]) →
      tokens.map (·.symbol) = w → Pending g e ops c.stack →
      ∃ tree, c.Returns tree ∧ tree.Derives g ∧ tree.symbol = e ∧ tree.leaves ++ [last] = all ∧
        tree.Grouped g := by
  induction hw with
  | atom =>
    intro c tokens h htokens hpending
    obtain ⟨token, rest, rfl, hatom, hrest⟩ := List.map_eq_cons_iff.mp htokens
    obtain rfl := List.map_eq_nil_iff.mp hrest
    obtain ⟨c₁, f, hleads, h₁, hstack, hf, -⟩ :=
      h.operand hops hg hbuild hatom (Or.inl hlast) rfl hpending
    obtain ⟨tree, hreturns, htree⟩ := h₁.finish hops hg hbuild hlast hpending hstack hf
    exact ⟨tree, hleads.returns hreturns, htree⟩
  | @cons op w hop _ ih =>
    intro c tokens h htokens hpending
    obtain ⟨token, rest, rfl, hatom, hrest⟩ := List.map_eq_cons_iff.mp htokens
    obtain ⟨next, rest, rfl, rfl, hrest'⟩ := List.map_eq_cons_iff.mp hrest
    obtain ⟨c₁, f, hleads₁, h₁, hstack₁, hf, hatomic⟩ :=
      h.operand hops hg hbuild hatom (Or.inr hop) rfl hpending
    obtain ⟨c₂, hleads₂, h₂, hpending₂⟩ :=
      h₁.operator hops hg hbuild hop hpending hstack₁ hf fun r hr => by
        rw [hatomic] at hr
        cases hr
    obtain ⟨tree, hreturns, htree⟩ := ih h₂ hrest' hpending₂
    exact ⟨tree, (hleads₁.trans hleads₂).returns hreturns, htree⟩

/-- A grammar of operators has tables. -/
theorem exists_build (hops : g.Operators e atom ops) (options : Lr.ParseOptions) :
    ∃ t ds, Lr.build g options = .ok (t, ds) := by
  obtain ⟨i, hinput, -⟩ := hops.input
  have hrules : g.rules.isNone = false := by
    cases hnone : g.rules with
    | none =>
      have hlength := hops.rules.length_eq
      simp [Grammar.ruleList, hnone] at hlength
    | some rules => rfl
  unfold Lr.build
  rw [hrules, hinput]
  exact ⟨_, _, rfl⟩

/-- **Declared precedences give the tree.**  For a grammar of binary operators, whatever their levels
and associativities and whatever the options: there are tables, without conflicts unless a level does
not associate; and a parse of a sequence of atoms with operators in between, up to the end of the
input, returns a derivation tree over these tokens in which every operator has operands with
operators that bind tighter, or of the same level on the side that the level associates to. -/
theorem parse_operators (hg : g.Frozen) (hops : g.Operators e atom ops)
    (options : Lr.ParseOptions) : ∃ t ds, Lr.build g options = .ok (t, ds) ∧
      ((∀ d ∈ g.priorityList, d.assoc ≠ .nonAssoc) → t.conflicts = []) ∧
      ∀ (s : Session) (tokens : List Token) (last : Token), s.Reached t →
        s.Supplies (tokens ++ [last]) → Alternates atom ops (tokens.map (·.symbol)) →
        last.symbol = g.eoi →
        ∃ tree limit, (∀ n ≥ limit, (s.parse 0 n).1 = .ok tree) ∧ tree.Derives g ∧
          tree.symbol = e ∧ tree.leaves = tokens ∧ tree.Grouped g := by
  have hwf := hg.wellFormed
  obtain ⟨t, ds, hbuild⟩ := exists_build hops options
  refine ⟨t, ds, hbuild, hops.conflicts_eq_nil hwf hbuild, ?_⟩
  intro s tokens last hs hsupplies htokens hlast
  obtain ⟨rfl, hkeeps⟩ := hs.keeps
  have hserves := Lr.serves_of_build hbuild
  obtain ⟨i, hinput, -⟩ := hops.input
  have hi : g.inputList[0]? = some i := by rw [hinput]; rfl
  obtain ⟨start, hstart⟩ := exists_start_of_input hwf hi
  have hsound : Config.Sound g 0 ⟨s, start, []⟩ :=
    ⟨⟨hserves, hkeeps, hstart, .nil⟩, fun f hf => by cases hf⟩
  have hreads : Config.Reads g s.table (tokens ++ [last]) ⟨s, start, []⟩ (tokens ++ [last]) :=
    ⟨hsound, rfl, hsupplies, rfl⟩
  obtain ⟨tree, ⟨limit, hlimit⟩, hderives, hsymbol, hleaves, hgrouped⟩ :=
    htokens.run hops hwf hbuild hlast hreads rfl .nil
  refine ⟨tree, limit, fun n hn => ?_, hderives, hsymbol, List.append_cancel_right hleaves, hgrouped⟩
  rw [Session.parse_eq ((hserves.starts 0).trans hstart)]
  exact hlimit n hn

end Grammar

/-! ## 6. A grammar -/

/-- A grammar of expressions with comparisons, sums and powers, in which comparisons associate as
given. -/
def exprDraft (assoc : Assoc) : Draft :=
  { stamp := 0
    symbols := #[{ index := 0, name := eoiName, kind := .terminal },
      { index := 1, name := "name", kind := .terminal },
      { index := 2, name := "less", kind := .terminal },
      { index := 3, name := "plus", kind := .terminal },
      { index := 4, name := "power", kind := .terminal },
      { index := 5, name := "expr", kind := .nonterminal }]
    rules := #[binary 3, { left := 5, right := [{ target := 1 }] }, binary 4, binary 2]
    priorities := #[{ assoc, symbols := [2] }, { assoc := .left, symbols := [3] },
      { assoc := .right, symbols := [4] }]
    inputs := #[{ target := 5, hasEoi := true }] }
where
  binary (op : Nat) : Rule :=
    { left := 5, right := [{ target := 5 }, { target := op }, { target := 5 }] }

theorem exprDraft_reached (assoc : Assoc) : (exprDraft assoc).Reached := by
  -- the symbols, then the priorities and the input, then the rules
  have hname : (Draft.new 0).addTerminal "name" none none =
      .ok (⟨0, 1⟩, { Draft.new 0 with symbols := (exprDraft assoc).symbols.take 2 }) := by
    with_unfolding_all rfl
  have hless : { Draft.new 0 with symbols := (exprDraft assoc).symbols.take 2 }.addTerminal "less"
      none none =
      .ok (⟨0, 2⟩, { Draft.new 0 with symbols := (exprDraft assoc).symbols.take 3 }) := by
    with_unfolding_all rfl
  have hplus : { Draft.new 0 with symbols := (exprDraft assoc).symbols.take 3 }.addTerminal "plus"
      none none =
      .ok (⟨0, 3⟩, { Draft.new 0 with symbols := (exprDraft assoc).symbols.take 4 }) := by
    with_unfolding_all rfl
  have hpower : { Draft.new 0 with symbols := (exprDraft assoc).symbols.take 4 }.addTerminal "power"
      none none =
      .ok (⟨0, 4⟩, { Draft.new 0 with symbols := (exprDraft assoc).symbols.take 5 }) := by
    with_unfolding_all rfl
  have hexpr : { Draft.new 0 with symbols := (exprDraft assoc).symbols.take 5 }.addNonterminal "expr"
      none none = .ok (⟨0, 5⟩, { Draft.new 0 with symbols := (exprDraft assoc).symbols }) := by
    with_unfolding_all rfl
  have hsymbols := (((((Draft.Reached.new 0).terminal hname).terminal hless).terminal
    hplus).terminal hpower).nonterminal hexpr
  have hpriority₁ : { Draft.new 0 with symbols := (exprDraft assoc).symbols }.addPriority assoc
      [⟨0, 2⟩] none = .ok { exprDraft assoc with
        priorities := (exprDraft assoc).priorities.take 1, inputs := #[], rules := #[] } := rfl
  have hpriority₂ : { exprDraft assoc with
      priorities := (exprDraft assoc).priorities.take 1, inputs := #[], rules := #[] }.addPriority
      .left [⟨0, 3⟩] none = .ok { exprDraft assoc with
        priorities := (exprDraft assoc).priorities.take 2, inputs := #[], rules := #[] } := rfl
  have hpriority₃ : { exprDraft assoc with
      priorities := (exprDraft assoc).priorities.take 2, inputs := #[], rules := #[] }.addPriority
      .right [⟨0, 4⟩] none = .ok { exprDraft assoc with inputs := #[], rules := #[] } := rfl
  have hinput : { exprDraft assoc with inputs := #[], rules := #[] }.addInput ⟨0, 5⟩ true none =
      .ok { exprDraft assoc with rules := #[] } := rfl
  have hsum : { exprDraft assoc with rules := #[] }.addRule ⟨0, 5⟩ [⟨0, 5⟩, ⟨0, 3⟩, ⟨0, 5⟩] =
      .ok (0, { exprDraft assoc with rules := (exprDraft assoc).rules.take 1 }) := rfl
  have hatom : { exprDraft assoc with rules := (exprDraft assoc).rules.take 1 }.addRule ⟨0, 5⟩
      [⟨0, 1⟩] = .ok (1, { exprDraft assoc with rules := (exprDraft assoc).rules.take 2 }) := rfl
  have hpowers : { exprDraft assoc with rules := (exprDraft assoc).rules.take 2 }.addRule ⟨0, 5⟩
      [⟨0, 5⟩, ⟨0, 4⟩, ⟨0, 5⟩] =
      .ok (2, { exprDraft assoc with rules := (exprDraft assoc).rules.take 3 }) := rfl
  have hcomparison : { exprDraft assoc with rules := (exprDraft assoc).rules.take 3 }.addRule ⟨0, 5⟩
      [⟨0, 5⟩, ⟨0, 2⟩, ⟨0, 5⟩] = .ok (3, exprDraft assoc) := rfl
  have hlevels := ((hsymbols.priority hpriority₁).priority hpriority₂).priority hpriority₃
  exact ((((hlevels.input hinput).addRule hsum).addRule hatom).addRule hpowers).addRule hcomparison

theorem operators_exprDraft (assoc : Assoc) : (exprDraft assoc).freeze.Operators 5 1 [2, 3, 4] where
  rules := by cases assoc <;> decide +kernel
  nodup := by decide
  atom_lt := by cases assoc <;> decide +kernel
  op_lt := by cases assoc <;> decide +kernel
  input := ⟨{ target := 5, hasEoi := true }, by cases assoc <;> decide +kernel, rfl, rfl⟩
  listed := by cases assoc <;> decide +kernel

/-- A scanner of an expression, which takes any character but an operator for a name. -/
def exprScanner : Scanner :=
  .new
    { classes := 5, asciiClasses := #[]
      classRanges := [⟨0, 42, 1⟩, ⟨43, 43, 3⟩, ⟨44, 59, 1⟩, ⟨60, 60, 2⟩, ⟨61, 93, 1⟩, ⟨94, 94, 4⟩,
        ⟨95, 1114111, 1⟩]
      states := 5
      transitions := #[-2, 1, 2, 3, 4, -3, -3, -3, -3, -3, -4, -4, -4, -4, -4, -5, -5, -5, -5, -5,
        -6, -6, -6, -6, -6]
      stateMap := #[0], backtracking := #[], firstRule := -2, actionSymbol := #[0, 1, 2, 3, 4] }
    "a+b+c^d^e<f<g"

theorem parse_operators_expr :
    (∃ t ds, Lr.build (exprDraft .left).freeze {} = .ok (t, ds) ∧ t.conflicts = []) ∧
    ∃ t ds, Lr.build (exprDraft .nonAssoc).freeze {} = .ok (t, ds) ∧ ∃ tree limit,
      (∀ n ≥ limit, ((Session.new t exprScanner).parse 0 n).1 = .ok tree) ∧
      tree.leaves.map (·.symbol) = [1, 3, 1, 3, 1, 4, 1, 4, 1, 2, 1, 2, 1] ∧
      tree.Grouped (exprDraft .nonAssoc).freeze := by
  constructor
  · obtain ⟨t, ds, hbuild, hconflicts, -⟩ := parse_operators
      ⟨exprDraft .left, exprDraft_reached .left, rfl⟩ (operators_exprDraft .left) {}
    exact ⟨t, ds, hbuild, hconflicts (by decide +kernel)⟩
  · obtain ⟨t, ds, hbuild, -, hparse⟩ := parse_operators
      ⟨exprDraft .nonAssoc, exprDraft_reached .nonAssoc, rfl⟩ (operators_exprDraft .nonAssoc) {}
    have hterminals : t.terminals = 5 :=
      (Lr.serves_of_build hbuild).terminals.trans (by decide +kernel)
    have hsymbols : (exprScanner.tokens 5 14).map (·.symbol) =
        [1, 3, 1, 3, 1, 4, 1, 4, 1, 2, 1, 2, 1] ++ [0] := by decide +kernel
    have halternates : Alternates 1 [2, 3, 4] [1, 3, 1, 3, 1, 4, 1, 4, 1, 2, 1, 2, 1] := by
      repeat' first | exact .atom | refine .cons (by decide) ?_
    obtain ⟨tokens, lasts, heq, htokens, hlasts⟩ := List.map_eq_append_iff.mp hsymbols
    obtain ⟨last, rfl⟩ := List.length_eq_one_iff.mp
      ((List.length_map _).symm.trans (congrArg List.length hlasts))
    have hsupplies := Scanner.supplies_tokens 5 14 exprScanner
    rw [heq, ← hterminals] at hsupplies
    obtain ⟨tree, limit, hok, -, -, rfl, hgrouped⟩ := hparse _ tokens last
      (.new exprScanner) ⟨_, rfl, hsupplies⟩ (htokens.symm ▸ halternates) (List.cons.inj hlasts).1
    exact ⟨t, ds, hbuild, tree, limit, hok, htokens, hgrouped⟩

end GrammarTables.Parse
