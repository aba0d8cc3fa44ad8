import GrammarTables.Graph.Explore
import GrammarTables.Lr.First
/-
# The automaton of items

An item is a production with a dot that marks how much of its right side was recognised.  A state
is a set of items, determined by its kernel: the items that moving the dot has led to.  One
automaton serves all inputs; each has a start of its own, and states that can be reached from
several starts are shared.

The functions are `next` and `advance` of an item, `closure` and `build`.
-/

namespace GrammarTables.Lr

/-! ## 1. Items -/

/-- A production with a dot in its right side. -/
structure Item where
  rule : Nat
  dot : Nat
deriving DecidableEq

namespace Item

/-- The symbol after the dot. -/
def next? (p : Productions) (i : Item) : Option Nat := (p.rightOf i.rule)[i.dot]?

/-- The item with the dot one symbol further. -/
def advance (i : Item) : Item := ⟨i.rule, i.dot + 1⟩

/-- Order by production, then by dot. -/
def before (i j : Item) : Bool := i.rule < j.rule || (i.rule = j.rule && i.dot < j.dot)

end Item

/-- The items of a symbol with the dot in front. -/
def initialItems (p : Productions) (symbol : Nat) : List Item :=
  (p.rulesOf symbol).map (⟨·, 0⟩)

/-- The nonterminals after a dot, in order. -/
def expected (p : Productions) (items : List Item) : List Nat :=
  items.filterMap fun i => (i.next? p).filter p.isNonterminal

/-- The nonterminals that a kernel expects, directly or after expanding others, in the order of
discovery. -/
def expansions (p : Productions) (kernel : List Item) : List Nat :=
  (Graph.explore p.byLeft.size (fun x => (expected p (initialItems p x)).map (0, ·))
    (expected p kernel)).2.keys.toList

/-- The items of the state with a given kernel: the kernel, and the initial items of all
nonterminals it expects. -/
def closure (p : Productions) (kernel : List Item) : List Item :=
  kernel ++ (expansions p kernel).flatMap (initialItems p)

/-! ## 2. States -/

/-- The kernels of the states that follow a state, by the symbol read, ascending. -/
def successors (p : Productions) (kernel : List Item) : List (Nat × List Item) :=
  let items := closure p kernel
  (ascending (items.filterMap (Item.next? p))).map fun x =>
    (x, sortBy Item.before ((items.filter fun i => i.next? p = some x).map Item.advance))

/-- A state of the automaton. -/
structure ItemState where
  /-- The kernel, in order. -/
  kernel : List Item
  /-- The kernel and the initial items it calls for. -/
  items : List Item
  /-- The states that follow, by symbol, ascending. -/
  gotos : List (Nat × Nat)

/-- The state after a symbol. -/
def ItemState.goto? (s : ItemState) (x : Nat) : Option Nat :=
  (s.gotos.find? fun e => e.1 = x).map (·.2)

/-- The automaton of items. -/
structure Automaton where
  states : Array ItemState
  /-- The start of each input. -/
  starts : List Nat
  /-- The state in which each input is complete. -/
  finals : List Nat

namespace Automaton

/-- The number of items of some productions. -/
def itemCount (p : Productions) : Nat := p.right.foldl (fun n xs => n + (xs.length + 1)) 0

/-- The automaton of some productions. -/
def ofProductions (p : Productions) : Automaton :=
  let (starts, d) := Graph.explore (Nat.pow 2 (itemCount p)) (successors p)
    (p.startRules.map fun rule => [⟨rule, 0⟩])
  let states := (d.keys.zip d.rows).map fun (kernel, gotos) =>
    ({ kernel, items := closure p kernel, gotos } : ItemState)
  { states
    starts
    finals := p.startRules.map fun rule =>
      (states.findIdx? fun s => s.kernel.contains ⟨rule, 1⟩).getD 0 }

/-- The number of states. -/
def size (a : Automaton) : Nat := a.states.size

end Automaton

end GrammarTables.Lr
