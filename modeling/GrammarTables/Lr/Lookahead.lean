import GrammarTables.Lr.Automaton
/-
# Lookaheads

For each state and each production that is complete in it, the terminals that may follow.

Each kernel item is closed together with what may follow: a terminal, or the mark `follows` for
whatever follows the kernel item itself.  Terminals found this way are generated, and the mark
says that the lookaheads of one kernel item flow into those of another.  What flows where is then
a matter of reachability, terminal by terminal.

The functions are `closure1` and `compute`.
-/

namespace GrammarTables.Lr

/-! ## 1. Closing a kernel item -/

/-- The productions, what symbols can begin with, and what the first symbol of each production
is followed by within it: its first terminals, and whether the rest is nullable. -/
structure Context where
  productions : Productions
  firsts : FirstSets
  tails : Array (List Nat × Bool)

namespace Context

/-- The context of some productions. -/
def ofProductions (p : Productions) : Context :=
  let f := FirstSets.ofProductions p
  { productions := p
    firsts := f
    tails := p.right.map fun xs => (f.ofSeq (xs.drop 1), f.isNullable (xs.drop 1)) }

/-- The mark for whatever follows a kernel item; the numbers below it are the terminals. -/
def follows (c : Context) : Nat := c.productions.terminals

/-- A nonterminal and what may follow it, as one number. -/
def code (c : Context) (symbol lookahead : Nat) : Nat := symbol * (c.follows + 1) + lookahead

/-- What may follow a symbol that stands before a rest, in an item followed by `lookahead`. -/
def after (c : Context) (rest : List Nat × Bool) (symbol lookahead : Nat) : List Nat :=
  if c.productions.isNonterminal symbol then
    rest.1.map (c.code symbol) ++ if rest.2 then [c.code symbol lookahead] else []
  else []

/-- The nonterminals, with what may follow them, that a nonterminal begins with. -/
def expand (c : Context) (v : Nat) : List Nat :=
  let lookahead := v % (c.follows + 1)
  (c.productions.rulesOf (v / (c.follows + 1))).flatMap fun rule =>
    match c.productions.rightOf rule with
    | x :: _ => c.after (c.tails.getD rule ([], true)) x lookahead
    | [] => []

/-- The closure of a kernel item followed by the mark: each item with what may follow it. -/
def closeItem (c : Context) (i : Item) : List (Item × Nat) :=
  let p := c.productions
  let rest := (p.rightOf i.rule).drop (i.dot + 1)
  let seeds := match i.next? p with
    | some x => c.after (c.firsts.ofSeq rest, c.firsts.isNullable rest) x c.follows
    | none => []
  (i, c.follows) ::
    (Graph.reachable (p.byLeft.size * (c.follows + 1)) c.expand seeds).flatMap fun v =>
      (initialItems p (v / (c.follows + 1))).map (·, v % (c.follows + 1))

end Context

/-! ## 2. Flow -/

/-- Where the lookaheads of an item go. -/
inductive Flow
  /-- Into those of a kernel item. -/
  | kernel (id : Nat)
  /-- Into those of a complete production. -/
  | complete (rule : Nat)
deriving DecidableEq

/-- The numbers of the first kernel items of the states, when all kernel items are numbered. -/
def kernelOffsets (a : Automaton) : Array Nat :=
  (a.states.foldl (fun (offsets, n) s => (offsets.push n, n + s.kernel.length)) (#[], 0)).1

/-- The number of all kernel items. -/
def kernelCount (a : Automaton) : Nat := a.states.foldl (fun n s => n + s.kernel.length) 0

/-- Where the lookaheads of an item of a state go. -/
def flowOf? (p : Productions) (a : Automaton) (offsets : Array Nat) (s : ItemState) (i : Item) :
    Option Flow :=
  match i.next? p with
  | none => some (.complete i.rule)
  | some x => do
    let t ← s.goto? x
    let target ← a.states[t]?
    let j ← target.kernel.findIdx? (· = i.advance)
    return .kernel (offsets.getD t 0 + j)

/-- For each kernel item of a state, where the items of its closure send which lookaheads. -/
def stateFlows (c : Context) (a : Automaton) (offsets : Array Nat) (s : ItemState) :
    List (List (Flow × Nat)) :=
  s.kernel.map fun i => (c.closeItem i).filterMap fun (item, la) =>
    (flowOf? c.productions a offsets s item).map (·, la)

/-- The terminals that may follow each input. -/
def inputLookaheads (p : Productions) (inputs : List Input) : List (List Nat) :=
  inputs.map fun i => if i.hasEoi then [0] else List.range p.terminals

/-- The kernel items that a terminal is generated for. -/
def generatedAt (flows : List (List (Flow × Nat))) (terminals : Nat)
    (starts : List (Nat × List Nat)) : Array (List Nat) :=
  let empty : Array (List Nat) := Array.replicate terminals []
  let fromStarts := starts.foldl (fun acc (id, las) =>
    las.foldl (fun acc la => acc.modify la (id :: ·)) acc) empty
  flows.foldl (fun acc flow => flow.foldl (fun acc (f, la) => match f with
    | .kernel id => acc.modify la (id :: ·)
    | .complete _ => acc) acc) fromStarts

/-- The kernel items that the lookaheads of each kernel item flow into. -/
def linksOf (flows : List (List (Flow × Nat))) (follows : Nat) : Array (List Nat) :=
  (flows.map fun flow => flow.filterMap fun (f, la) => match f with
    | .kernel id => if la = follows then some id else none
    | .complete _ => none).toArray

/-! ## 3. Reductions -/

/-- The productions that are complete in a state, ascending, with the terminals that may follow
them. -/
abbrev Reductions := List (Nat × List Nat)

/-- The reductions of a state whose kernel items have the flows `flows`, where `kernelLas` gives
the lookaheads of each of them. -/
def reductionsOf (flows : List (List (Flow × Nat))) (follows : Nat) (kernelLas : List (List Nat)) :
    Reductions :=
  let complete := (flows.zip kernelLas).flatMap fun (flow, las) => flow.filterMap fun (f, la) =>
    match f with
    | .complete rule => some (rule, if la = follows then las else [la])
    | .kernel _ => none
  (ascending (complete.map (·.1))).map fun rule =>
    (rule, ascending (complete.flatMap fun (r, las) => if r = rule then las else []))

/-- The reductions of each state. -/
def reductions (c : Context) (a : Automaton) (inputs : List Input) : Array Reductions :=
  let p := c.productions
  let offsets := kernelOffsets a
  let count := kernelCount a
  let flows := a.states.map (stateFlows c a offsets)
  let allFlows := flows.toList.flatten
  let starts := (a.starts.zip (inputLookaheads p inputs)).map fun (s, las) =>
    (offsets.getD s 0, las)
  let generated := generatedAt allFlows p.terminals starts
  let links := linksOf allFlows c.follows
  let marks := generated.map fun ids => Graph.reach count (fun id => links.getD id []) ids
  let lookaheads (id : Nat) : List Nat := (List.range p.terminals).filter fun la =>
    (marks.getD la #[]).getD id false
  ((flows.zip offsets).map fun (flow, offset) =>
    reductionsOf flow c.follows ((List.range flow.length).map fun k => lookaheads (offset + k)))

end GrammarTables.Lr
