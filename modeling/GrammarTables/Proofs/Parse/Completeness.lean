import GrammarTables.Proofs.Lr.Moves
import GrammarTables.Proofs.Parse.Soundness
import GrammarTables.Proofs.Scan.Progress
/-
# Tables without conflicts parse whatever is derived

Where the tables leave no choice, the machine does every move of the automaton
(`Config.Shows.move`), with and without default reductions.  So it accepts every sequence of
terminals that the target of an input derives, when the end of the input follows, and the tree that
it returns is the only one.
-/

namespace GrammarTables.Parse

open Scan (Token Scanner)
open Lr (ParseTable Productions Automaton Item Path Completes Settled Move Shape Grows roots
  mayFollow_eoi)

/-! ## 1. Shapes of trees -/

namespace Tree

mutual

/-- The shape of a tree. -/
def shape : Tree → Shape
  | .leaf token => .leaf token.symbol
  | .branch rule _ _ children => .branch rule (shapeAll children)

/-- The shapes of a list of trees. -/
def shapeAll : List Tree → List Shape
  | [] => []
  | t :: ts => shape t :: shapeAll ts

end

theorem shapeAll_eq (ts : List Tree) : shapeAll ts = ts.map shape := by
  induction ts with
  | nil => rfl
  | cons t ts ih => rw [shapeAll, ih, List.map_cons]

end Tree

/-- The shape of a derivation tree derives its leaves. -/
theorem Tree.Derives.grows {g : Grammar} (hg : g.WellFormed) {tree : Tree} (h : tree.Derives g) :
    Grows (.ofGrammar g) [tree.symbol] [tree.shape] (tree.leaves.map (·.symbol)) := by
  induction h with
  | leaf hlt =>
    rw [leaves_leaf, shape]
    exact .terminal hlt .nil
  | @branch rule symbol span children r hrule hsymbol hchildren _ ih =>
    have hall : ∀ ts : List Tree, (∀ t ∈ ts, Grows (.ofGrammar g) [t.symbol] [t.shape]
        (t.leaves.map (·.symbol))) → Grows (.ofGrammar g) (ts.map Tree.symbol) (ts.map shape)
          ((ts.flatMap Tree.leaves).map (·.symbol)) := by
      intro ts hts
      induction ts with
      | nil => exact .nil
      | cons t ts ihts =>
        rw [List.flatMap_cons, List.map_append]
        exact (hts t (List.mem_cons_self ..)).append
          (ihts fun t' ht' => hts t' (List.mem_cons_of_mem t ht'))
    have hgrows := hall children ih
    rw [hchildren, ← Productions.rightOf_rule g hrule] at hgrows
    have hbranch := Grows.rule (Lr.mem_rulesOf_ofGrammar hg hrule) hgrows .nil
    rw [List.append_nil] at hbranch
    rw [leaves_branch, shape, shapeAll_eq, Tree.symbol, hsymbol]
    exact hbranch

/-! ## 2. Tokens to come -/

theorem seek_of_supplies {terminals : Nat} {sc : Scanner} {token : Token} {tokens : List Token}
    (h : sc.Supplies terminals (token :: tokens)) {n : Nat} (hn : sc.remaining < n) :
    (seek terminals n sc).1 = .ok token ∧ (seek terminals n sc).2.Supplies terminals tokens := by
  generalize htokens : token :: tokens = supplied at h
  induction h generalizing n with
  | nil => cases htokens
  | @layout sc layout supplied hresult hsymbol hsupplies ih =>
    obtain ⟨m, rfl⟩ : ∃ m, n = m + 1 := ⟨n - 1, by omega⟩
    rw [seek, hresult]
    simp only [if_neg (Nat.not_lt.mpr hsymbol)]
    rcases Scanner.remaining_next hresult with hlt | hstuck
    · exact ih (by omega) htokens
    · rw [← htokens] at hsupplies
      exact absurd hsupplies (Scanner.not_supplies_of_agrees hresult hsymbol hstuck hstuck)
  | token hresult hlt hsupplies _ =>
    obtain ⟨rfl, rfl⟩ := List.cons.inj htokens
    obtain ⟨m, rfl⟩ : ∃ m, n = m + 1 := ⟨n - 1, by omega⟩
    rw [seek, hresult]
    simp only [if_pos hlt, true_and]
    exact hsupplies

namespace Session

/-- The tokens to come in a session begin with these: the one kept, then those of the scanner. -/
def Supplies (s : Session) (tokens : List Token) : Prop :=
  ∃ rest, tokens = s.lookahead.toList ++ rest ∧ s.scanner.Supplies s.table.terminals rest

variable {s s' : Session} {token : Token} {tokens : List Token}

theorem Supplies.of_alike (h : s.Supplies tokens) (halike : s'.Alike s) : s'.Supplies tokens := by
  obtain ⟨rest, htokens, hrest⟩ := h
  refine ⟨rest, ?_, ?_⟩
  · rw [halike.lookahead]
    exact htokens
  · rw [halike.scanner, halike.terminals]
    exact hrest

/-- **Looking shows the first of the tokens to come**, and takes none away. -/
theorem Supplies.peek (h : s.Supplies (token :: tokens)) :
    s.peek.1 = .ok token ∧ s.peek.2.Supplies (token :: tokens) ∧
      s.peek.2.scanner.Supplies s.table.terminals tokens := by
  have hpeek : s.peek.1 = .ok token ∧
      s.peek.2.scanner.Supplies s.table.terminals tokens := by
    obtain ⟨rest, htokens, hrest⟩ := h
    cases hlook : s.lookahead with
    | none =>
      rw [hlook] at htokens
      obtain rfl : token :: tokens = rest := htokens
      obtain ⟨hfst, hscanner, -, -⟩ := peek_of_none hlook
      have hremaining := s.scanner.remaining_le
      rw [hfst, hscanner]
      exact seek_of_supplies hrest (by omega)
    | some kept =>
      rw [hlook] at htokens
      obtain ⟨rfl, rfl⟩ := List.cons.inj (show token :: tokens = kept :: rest from htokens)
      rw [peek_of_lookahead hlook]
      exact ⟨rfl, hrest⟩
  refine ⟨hpeek.1, ⟨tokens, ?_, ?_⟩, hpeek.2⟩
  · rw [lookahead_peek hpeek.1]
    rfl
  · rw [table_peek]
    exact hpeek.2

end Session

/-! ## 3. One step -/

namespace Config

variable {p : Productions} {a : Automaton} {inputs : List Input} {input : Nat} {c : Config}
  {token : Token} {tokens : List Token}

/-- A state before a token that it shifts or accepts has no default reduction. -/
theorem Follows.default?_eq_none (ha : a.Proper p) (h : c.Follows p a inputs input)
    (hlt : token.symbol < p.terminals) (herror : c.actionOn token ≠ .error)
    (hreduce : ∀ rule, c.actionOn token ≠ .reduce rule) : c.default? = none := by
  cases hdefault : c.default? with
  | none => rfl
  | some rule =>
    obtain ⟨st, hs⟩ := h.exists_state ha
    rcases (h.serves.default hs hdefault).2 _ hlt with hact | hact
    · exact absurd hact herror
    · exact absurd hact (hreduce rule)

/-- **The machine shifts the next token** where the tables say so. -/
theorem Follows.exists_shift (ha : a.Proper p) (h : c.Follows p a inputs input)
    (hsupplies : c.session.Supplies (token :: tokens)) {u : Nat}
    (haction : c.actionOn token = .shift u) :
    ∃ c', c.step = .next c' ∧ c'.stack = ⟨.leaf token, u⟩ :: c.stack ∧
      c'.session.Supplies tokens := by
  obtain ⟨hpeek, -, hrest⟩ := hsupplies.peek
  have hdefault :=
    h.default?_eq_none ha (h.lt_of_peek hpeek) (by simp [haction]) (by simp [haction])
  obtain ⟨c', hstep⟩ := step_of_shift hdefault hpeek haction
  refine ⟨c', hstep, ?_⟩
  obtain ⟨heffect, -, htable⟩ := effect_of_step hstep
  cases heffect with
  | shift token' u' _ hpeek' haction' hstack hscanner hlookahead =>
    obtain rfl := Except.ok.inj (hpeek.symm.trans hpeek')
    obtain rfl := Lr.Action.shift.inj (haction.symm.trans haction')
    refine ⟨hstack, tokens, by rw [hlookahead]; rfl, ?_⟩
    rw [hscanner, htable]
    exact hrest
  | reduceByDefault => grind
  | reduce => grind

/-- **The machine reduces a rule** where the tables say so before the next token, by default or
not. -/
theorem Follows.exists_reduce (ha : a.Proper p) (h : c.Follows p a inputs input)
    (hsupplies : c.session.Supplies (token :: tokens)) {rule : Nat}
    (haction : c.actionOn token = .reduce rule) (hreducible : c.Reducible rule) :
    ∃ c', c.step = .next c' ∧ c.Reduced rule c'.stack ∧
      c'.session.Supplies (token :: tokens) := by
  obtain ⟨hpeek, hpeeked, -⟩ := hsupplies.peek
  cases hdefault : c.default? with
  | none =>
    obtain ⟨c', hstep⟩ := step_of_reduce hdefault hpeek haction hreducible
    refine ⟨c', hstep, ?_⟩
    cases (effect_of_step hstep).1 with
    | reduce rule' token' _ hpeek' haction' hstack hsession =>
      obtain rfl := Except.ok.inj (hpeek.symm.trans hpeek')
      obtain rfl := Lr.Action.reduce.inj (haction.symm.trans haction')
      exact ⟨hstack, hpeeked.of_alike hsession⟩
    | shift => grind
    | reduceByDefault => grind
  | some rule' =>
    obtain ⟨st, hs⟩ := h.exists_state ha
    obtain rfl : rule' = rule := by
      rcases (h.serves.default hs hdefault).2 _ (h.lt_of_peek hpeek) with hact | hact
      · exact absurd (haction.symm.trans hact) (by simp)
      · exact (Lr.Action.reduce.inj (haction.symm.trans hact)).symm
    obtain ⟨c', hstep⟩ := step_of_default hdefault hreducible
    refine ⟨c', hstep, ?_⟩
    cases (effect_of_step hstep).1 with
    | reduceByDefault rule hdefault' hstack hsession =>
      obtain rfl := Option.some.inj (hdefault.symm.trans hdefault')
      exact ⟨hstack, hsupplies.of_alike hsession⟩
    | shift => grind
    | reduce => grind

/-- **The machine accepts** where the tables say so and one tree is on the stack. -/
theorem Follows.exists_accept (ha : a.Proper p) (h : c.Follows p a inputs input)
    (hsupplies : c.session.Supplies (token :: tokens)) (haction : c.actionOn token = .accept)
    {f : Frame} (hstack : c.stack = [f]) : ∃ s, c.step = .accepted f.tree s := by
  obtain ⟨hpeek, -, -⟩ := hsupplies.peek
  have hdefault :=
    h.default?_eq_none ha (h.lt_of_peek hpeek) (by simp [haction]) (by simp [haction])
  exact step_of_accept hdefault hpeek haction hstack

end Config

/-! ## 4. Following the automaton -/

/-- The machine gets from one configuration to another. -/
def Config.Leads (c c' : Config) : Prop := ∃ n, ∀ k, c.run (n + k) = c'.run k

theorem Config.Leads.refl (c : Config) : c.Leads c := ⟨0, fun k => by rw [Nat.zero_add]⟩

theorem Config.Leads.trans {c c' c'' : Config} (h : c.Leads c') (h' : c'.Leads c'') :
    c.Leads c'' := by
  obtain ⟨n, hn⟩ := h
  obtain ⟨n', hn'⟩ := h'
  exact ⟨n + n', fun k => by rw [Nat.add_assoc, hn, hn']⟩

theorem Config.leads_of_step {c c' : Config} (h : c.step = .next c') : c.Leads c' :=
  ⟨1, fun k => by rw [Nat.add_comm, Config.run_of_next h]⟩

section Shows

variable {p : Productions} {a : Automaton} {inputs : List Input} {input : Nat}

/-- **A configuration shows a stack of shapes** and the terminals to come. -/
structure Config.Shows (p : Productions) (a : Automaton) (inputs : List Input) (input : Nat)
    (c : Config) (m : List Shape × List Nat) : Prop where
  follows : c.Follows p a inputs input
  shapes : c.stack.map (·.tree.shape) = m.1
  symbols : symbolsOf c.stack = roots p m.1
  supplies : ∃ tokens, c.session.Supplies tokens ∧ tokens.map (·.symbol) = m.2

/-- The state of the machine is the one that the automaton reaches. -/
theorem Config.Shows.state_eq {c : Config} {m : List Shape × List Nat} {s : Nat}
    (h : c.Shows p a inputs input m) (hpath : Path a c.start (roots p m.1) s) : c.state = s :=
  h.follows.stacked.path.unique (h.symbols ▸ hpath)

/-- The stack above and below some children. -/
theorem Config.Shows.split {c : Config} {children below : List Shape} {rest : List Nat}
    (h : c.Shows p a inputs input (children.reverse ++ below, rest)) :
    (c.stack.take children.length).map (·.tree.shape) = children.reverse ∧
      (c.stack.drop children.length).map (·.tree.shape) = below ∧
      symbolsOf (c.stack.drop children.length) = roots p below := by
  have hsymbols : c.stack.map (·.tree.symbol) = (children.reverse ++ below).map (Shape.root p) :=
    h.symbols
  rw [symbolsOf, List.map_take, List.map_drop, List.map_drop, h.shapes, hsymbols, ← List.map_drop,
    ← List.length_reverse, List.drop_left, List.take_left]
  exact ⟨rfl, rfl, rfl⟩

/-- The machine can reduce what the automaton reduces. -/
theorem Config.Shows.reducible (hp : p.Proper) {c : Config} {children below : List Shape}
    {rest : List Nat} {rule next : Nat}
    (h : c.Shows p a inputs input (children.reverse ++ below, rest)) (hrule : rule < p.rules)
    (hlength : children.length = (p.rightOf rule).length)
    (hpath : Path a c.start (p.leftOf rule :: roots p below) next) :
    c.arity rule = children.length ∧ c.Reducible rule := by
  have harity : c.arity rule = children.length :=
    (h.follows.serves.ruleLength hrule).trans hlength.symm
  refine ⟨harity, ?_, next, ?_⟩
  · have hstack := congrArg List.length h.shapes
    rw [List.length_map, List.length_append, List.length_reverse] at hstack
    omega
  · obtain ⟨-, -, hbelow⟩ := h.split
    cases hpath with
    | cons hpath hs hgoto =>
      have hstate := (h.follows.stacked.drop children.length).path.unique (hbelow ▸ hpath)
      rw [Config.after?, harity, h.follows.serves.ruleLeft hrule, hstate,
        h.follows.serves.goto hs (hp.left hrule).1 (hp.left hrule).2]
      exact hgoto

/-- **The machine does every move of the automaton.** -/
theorem Config.Shows.move (hp : p.Proper) (ha : a.Proper p) (hsettled : Settled p a inputs)
    {c : Config} {m m' : List Shape × List Nat} (h : c.Shows p a inputs input m)
    (hmove : Move p a inputs c.start m m') :
    ∃ c', c.step = .next c' ∧ c'.start = c.start ∧ c'.Shows p a inputs input m' := by
  obtain ⟨tokens, hsupplies, htokens⟩ := h.supplies
  cases hmove with
  | @shift stack rest x s u st hpath hs hx hgoto =>
    obtain ⟨token, tokens, rfl, rfl, htokens'⟩ := List.map_eq_cons_iff.mp htokens
    obtain rfl := h.state_eq hpath
    have haction : c.actionOn token = .shift u :=
      h.follows.serves.action_eq_shift hsettled hs hx hgoto
    obtain ⟨c', hstep, hstack, hsupplies'⟩ := h.follows.exists_shift ha hsupplies haction
    refine ⟨c', hstep, (effect_of_step hstep).2.1, h.follows.step hp ha hstep, ?_, ?_,
      tokens, hsupplies', htokens'⟩
    · rw [hstack, List.map_cons, h.shapes]
      rfl
    · rw [hstack]
      exact congrArg (token.symbol :: ·) h.symbols
  | @reduce stack children below rest b rule s next hpath hcompletes hrule hstack hlength hnext =>
    obtain ⟨token, tokens, rfl, rfl, htokens'⟩ := List.map_eq_cons_iff.mp htokens
    obtain rfl := h.state_eq hpath
    subst hstack
    obtain ⟨harity, hreducible⟩ := h.reducible hp hrule hlength hnext
    obtain ⟨i, hahead, -⟩ := id hcompletes
    obtain ⟨st, hs⟩ := hahead.exists_state
    have haction : c.actionOn token = .reduce rule :=
      h.follows.serves.action_eq_reduce hsettled hs hahead.lt_terminals hcompletes hrule
    obtain ⟨c', hstep, ⟨-, span, next', -, hstack'⟩, hsupplies'⟩ :=
      h.follows.exists_reduce ha hsupplies haction hreducible
    obtain ⟨htake, hdrop, hbelow⟩ := h.split
    rw [harity, h.follows.serves.ruleLeft hrule] at hstack'
    refine ⟨c', hstep, (effect_of_step hstep).2.1, h.follows.step hp ha hstep, ?_, ?_,
      _, hsupplies', htokens⟩
    · rw [hstack', List.map_cons, hdrop, Tree.shape, Tree.shapeAll_eq, List.map_map,
        List.map_reverse]
      rw [show (c.stack.take children.length).map (Tree.shape ∘ Frame.tree) = _ from htake,
        List.reverse_reverse]
    · rw [hstack']
      exact congrArg (p.leftOf rule :: ·) hbelow

theorem Config.Shows.moves (hp : p.Proper) (ha : a.Proper p) (hsettled : Settled p a inputs)
    {c : Config} {m m' : List Shape × List Nat} (h : c.Shows p a inputs input m)
    (hmoves : Relation.ReflTransGen (Move p a inputs c.start) m m') :
    ∃ c', c.Leads c' ∧ c'.start = c.start ∧ c'.Shows p a inputs input m' := by
  induction hmoves with
  | refl => exact ⟨c, .refl c, rfl, h⟩
  | tail _ hmove ih =>
    obtain ⟨c₁, hleads, hstart, hshows⟩ := ih
    obtain ⟨c', hstep, hstart', hshows'⟩ := hshows.move hp ha hsettled (hstart ▸ hmove)
    exact ⟨c', hleads.trans (leads_of_step hstep), hstart'.trans hstart, hshows'⟩

end Shows

/-! ## 5. Parses -/

section Grammar

variable {g : Grammar} {options : Lr.ParseOptions} {t : ParseTable} {ds : List Diagnostic}
  {input : Nat} {i : Input}

theorem exists_start_of_input (hg : g.WellFormed) (hi : g.inputList[input]? = some i) :
    ∃ start, (Lr.automatonOf g).starts[input]? = some start := by
  have ha := Automaton.proper_ofProductions (Productions.proper_ofGrammar hg)
  have hlength : (Lr.automatonOf g).starts.length = g.inputList.length := by
    rw [Lr.automatonOf, ha.length_starts, Productions.size_ofGrammar]
    exact Nat.add_sub_cancel_left ..
  have hlt : input < (Lr.automatonOf g).starts.length :=
    hlength ▸ (List.getElem?_eq_some_iff.mp hi).1
  exact ⟨_, List.getElem?_eq_getElem hlt⟩

/-- A session that supplies what a shape derives returns a tree of that shape. -/
theorem parse_of_grows (hg : g.WellFormed) (hbuild : Lr.build g options = .ok (t, ds))
    (hsettled : Settled (.ofGrammar g) (Lr.automatonOf g) g.inputList)
    (hi : g.inputList[input]? = some i) (heoi : i.hasEoi = true) {d : Shape} {w : List Nat}
    (hd : Grows (.ofGrammar g) [i.target] [d] w) {s : Session} (hs : s.Reached t)
    {tokens : List Token} (hsupplies : s.Supplies tokens)
    (hsymbols : tokens.map (·.symbol) = w ++ [g.eoi]) :
    ∃ tree limit, (∀ n ≥ limit, (s.parse input n).1 = .ok tree) ∧ tree.Derives g ∧
      tree.symbol = i.target ∧ tree.shape = d := by
  obtain ⟨rfl, hkeeps⟩ := hs.keeps
  have hp := Productions.proper_ofGrammar hg
  have ha : (Lr.automatonOf g).Proper (.ofGrammar g) := Automaton.proper_ofProductions hp
  have hserves := Lr.serves_of_build hbuild
  have hright := Productions.rightOf_input g hi
  obtain ⟨start, hstart⟩ := exists_start_of_input hg hi
  have hfollows : Config.Follows (.ofGrammar g) (Lr.automatonOf g) g.inputList input
      ⟨s, start, []⟩ := ⟨hserves, hkeeps, hstart, .nil⟩
  obtain ⟨hmoves, u, hpath, hcompletes⟩ :=
    hd.moves_input hp ha hstart (mayFollow_eoi hg hi heoi) hright
  have hshows : Config.Shows (.ofGrammar g) (Lr.automatonOf g) g.inputList input ⟨s, start, []⟩
      ([], w ++ [0]) := ⟨hfollows, rfl, rfl, tokens, hsupplies, hsymbols⟩
  obtain ⟨c, ⟨k, hk⟩, hstart', hfinal⟩ := hshows.moves hp ha hsettled hmoves
  -- one tree is on the stack, and the end of the input is to come
  obtain ⟨f, frames, hstack, hshape, hframes⟩ := List.map_eq_cons_iff.mp hfinal.shapes
  obtain rfl := List.map_eq_nil_iff.mp hframes
  obtain ⟨tokens', hsupplies', htokens'⟩ := hfinal.supplies
  obtain ⟨token, rest, rfl, hzero, -⟩ := List.map_eq_cons_iff.mp htokens'
  replace hstart' : c.start = start := hstart'
  obtain rfl := hfinal.state_eq (hstart'.symm ▸ hpath)
  obtain ⟨st, hst⟩ := hfinal.follows.exists_state ha
  have haction : c.actionOn token = .accept := by
    rw [Config.actionOn, hzero]
    exact hfinal.follows.serves.action_eq_accept hsettled hst hg.terminals_pos hcompletes
      (Nat.le_add_right _ _) (Lr.goto?_zero hp ha hst)
  obtain ⟨s', hstep⟩ := hfinal.follows.exists_accept ha hsupplies' haction hstack
  have hrun : ∀ n, (⟨s, start, []⟩ : Config).run (k + (n + 1)) = (.ok f.tree, s') := by
    intro n
    rw [hk, Config.run_of_accepted hstep]
  have hsound : Config.Sound g input ⟨s, start, []⟩ := ⟨hfollows, fun f hf => by cases hf⟩
  obtain ⟨hroot, hderives, -⟩ := hsound.run hg (hrun 0)
  rw [hright] at hroot
  refine ⟨f.tree, k + 1, ?_, hderives, (List.cons.inj hroot).1, hshape⟩
  intro n hn
  obtain ⟨m, rfl⟩ := Nat.exists_eq_add_of_le hn
  rw [Session.parse_eq ((hserves.starts input).trans hstart), Nat.add_assoc, Nat.add_comm 1, hrun]

/-- **Without conflicts, whatever is derived is parsed, and in one way only.**  For a grammar
without priorities whose tables have no conflicts, with or without default reductions, and for
whatever the target of an input derives that the end of the input has to follow: there is one
derivation tree, and a parse of these terminals and the end of the input returns it. -/
theorem parse_complete (hg : g.Frozen) (hpriorities : g.priorityList = [])
    (hbuild : Lr.build g options = .ok (t, ds)) (hconflicts : t.conflicts = [])
    (hi : g.inputList[input]? = some i) (heoi : i.hasEoi = true) {w : List Nat}
    (hw : ∀ x ∈ w, x < g.terminals) (hderives : g.Derives [i.target] w) :
    ∃ d : Shape,
      (∀ tree : Tree, tree.Derives g → tree.symbol = i.target →
        tree.leaves.map (·.symbol) = w → tree.shape = d) ∧
      ∀ (s : Session) (tokens : List Token), s.Reached t → s.Supplies tokens →
        tokens.map (·.symbol) = w ++ [g.eoi] →
        ∃ tree limit, (∀ n ≥ limit, (s.parse input n).1 = .ok tree) ∧ tree.Derives g ∧
          tree.symbol = i.target ∧ tree.leaves.map (·.symbol) = w ∧ tree.shape = d := by
  have hwf := hg.wellFormed
  have hp := Productions.proper_ofGrammar hwf
  have ha : (Lr.automatonOf g).Proper (.ofGrammar g) := Automaton.proper_ofProductions hp
  have hsettled := Lr.settled_of_build hbuild hpriorities hconflicts
  obtain ⟨start, hstart⟩ := exists_start_of_input hwf hi
  obtain ⟨shapes, hshapes⟩ := Lr.exists_grows_of_derives hwf hw hderives
  obtain ⟨d, rfl⟩ := List.length_eq_one_iff.mp hshapes.length_eq
  refine ⟨d, ?_, ?_⟩
  · intro tree htree hsymbol hleaves
    have hgrows := htree.grows hwf
    rw [hsymbol, hleaves] at hgrows
    exact hsettled.shape_unique hp ha hstart (mayFollow_eoi hwf hi heoi)
      (Productions.rightOf_input g hi) hgrows hshapes
  · intro s tokens hs hsupplies hsymbols
    obtain ⟨tree, limit, hparse, htree, hsymbol, rfl⟩ :=
      parse_of_grows hwf hbuild hsettled hi heoi hshapes hs hsupplies hsymbols
    exact ⟨tree, limit, hparse, htree, hsymbol, (htree.grows hwf).word_unique hshapes, rfl⟩

end Grammar

theorem parse_complete_list : ∃ d : Shape,
    (∀ tree : Tree, tree.Derives listDraft.freeze → tree.symbol = 2 →
      tree.leaves.map (·.symbol) = [1, 1] → tree.shape = d) ∧
    ∃ tree limit,
      (∀ n ≥ limit,
        ((Session.new (listTable false) (itemScanner "a b")).parse 0 n).1 = .ok tree) ∧
      tree.shape = d := by
  obtain ⟨ds, hbuild⟩ := build_listTable false
  have hinput : listDraft.freeze.inputList[0]? = some { target := 2, hasEoi := true } := by
    decide +kernel
  have hone : { left := 2, right := [{ target := 1 }] } ∈ listDraft.freeze.ruleList := by
    decide +kernel
  have hmore : { left := 2, right := [{ target := 2 }, { target := 1 }] } ∈
      listDraft.freeze.ruleList := by
    decide +kernel
  have hderives : listDraft.freeze.Derives [2] [1, 1] :=
    .head (.rule [] [] hmore) (.head (.rule [] [1] hone) .refl)
  obtain ⟨d, hunique, hparse⟩ := parse_complete ⟨listDraft, listDraft_reached, rfl⟩
    (by decide +kernel) hbuild (by decide +kernel) hinput rfl (by decide +kernel) hderives
  obtain ⟨tree, limit, hok, -, -, -, hshape⟩ := hparse _ _ (.new (itemScanner "a b"))
    ⟨_, rfl, Scanner.supplies_tokens _ 4 _⟩ (by decide +kernel)
  exact ⟨d, hunique, tree, limit, hok, hshape⟩

end GrammarTables.Parse
