import GrammarTables.Lr.Precedence
/-
# Parser tables

The tables that an LR parser runs on: for each state what to do before each terminal, and where
to go after each nonterminal.  Conflicts that had to be settled are kept with the tables.

The functions are `action` and `goto` of the tables.
-/

namespace GrammarTables.Lr

/-- What to do in a state before a terminal. -/
inductive Action
  | error
  /-- Take the terminal and go to the state. -/
  | shift (state : Nat)
  /-- Replace the right side of the rule by its left side. -/
  | reduce (rule : Nat)
  /-- The input is complete. -/
  | accept
deriving DecidableEq

/-- The text of an action. -/
def Action.text : Action → String
  | .error => "-"
  | .shift s => s!"s{s}"
  | .reduce r => s!"r{r}"
  | .accept => "acc"

/-- How a conflict was settled. -/
inductive ConflictKind
  | shiftReduce (outcome : ShiftReduce)
  /-- Several rules reduce on the same lookahead. -/
  | reduceReduce
deriving DecidableEq

/-- A conflict that no declared precedence settles. -/
structure Conflict where
  state : Nat
  lookahead : Nat
  kind : ConflictKind
  /-- The rules involved, ascending. -/
  rules : List Nat
deriving DecidableEq

/-- The tables of a parser. -/
structure ParseTable where
  terminals : Nat
  nonterminals : Nat
  states : Nat
  /-- The actions, row by row. -/
  actions : Array Action
  /-- The states after nonterminals, row by row. -/
  gotos : Array (Option Nat)
  /-- The rule that a state reduces whatever follows. -/
  defaultReduce : Array (Option Nat)
  ruleLeft : Array Nat
  ruleLength : Array Nat
  /-- The start of each input. -/
  startStates : Array Nat
  /-- The state in which each input is complete. -/
  finalStates : Array Nat := #[]
  conflicts : List Conflict := []
  /-- A description of the construction. -/
  debug : Option String := none
deriving DecidableEq

namespace ParseTable

/-- What to do in a state before a terminal. -/
def action (t : ParseTable) (state terminal : Nat) : Action :=
  t.actions.getD (state * t.terminals + terminal) .error

/-- The state after a nonterminal, given by its symbol. -/
def goto (t : ParseTable) (state symbol : Nat) : Option Nat :=
  t.gotos.getD (state * t.nonterminals + symbol - t.terminals) none

/-- The number of rules. -/
def rules (t : ParseTable) : Nat := t.ruleLeft.size

end ParseTable

end GrammarTables.Lr
