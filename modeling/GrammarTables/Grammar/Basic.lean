import GrammarTables.Grammar.Error
/-
# Grammars

A `Grammar` is finished: its symbols are sorted into terminals (the end of the input first),
nonterminals and layout, and everything refers to symbols by their place in that order.  A
grammar without rules describes a scanner only and has neither priorities nor inputs.

The functions are `index_of`, `symbol_by_name`, `rule_text` and the counts of a grammar.
-/

namespace GrammarTables

/-- The name of a part that was declared: its place in the order of declaration, stamped with
the draft that declared it. -/
structure Handle (space : Namespace) where
  draft : Nat
  index : Nat
deriving DecidableEq

/-- A finished grammar. -/
structure Grammar where
  /-- The draft that the grammar was made from. -/
  draft : Nat
  symbols : Array Symbol
  /-- Terminals have the indices below this. -/
  terminals : Nat
  /-- Terminals and nonterminals have the indices below this; layout symbols follow. -/
  grammarSymbols : Nat
  rules : Option (Array Rule)
  priorities : Option (Array Priority)
  inputs : Option (Array Input)
  lexicalRules : Array LexicalRule
  patterns : Array NamedPattern
  states : Array LexerState
  /-- The terminal that marks errors. -/
  error : Option Nat
  /-- The index of each symbol, by the order of declaration. -/
  positions : Array Nat

namespace Grammar

/-- The number of nonterminals. -/
def nonterminals (g : Grammar) : Nat := g.grammarSymbols - g.terminals

/-- The index of the end of the input. -/
def eoi (_ : Grammar) : Nat := 0

/-- The rules, none for a grammar that describes a scanner only. -/
def ruleList (g : Grammar) : List Rule := (g.rules.getD #[]).toList

/-- The inputs, none for a grammar that describes a scanner only. -/
def inputList (g : Grammar) : List Input := (g.inputs.getD #[]).toList

/-- The priorities, lowest first, none for a grammar that describes a scanner only. -/
def priorityList (g : Grammar) : List Priority := (g.priorities.getD #[]).toList

/-- The name of a symbol. -/
def symbolName (g : Grammar) (index : Nat) : String :=
  match g.symbols[index]? with
  | some s => s.name
  | none => ""

/-- Where a symbol was declared. -/
def symbolOrigin (g : Grammar) (index : Nat) : Option Anchor := g.symbols[index]?.bind (·.origin)

/-- The index of the symbol that a handle names, if the handle is from the same draft. -/
def indexOf? (g : Grammar) (h : Handle .symbol) : Option Nat :=
  if h.draft = g.draft then g.positions[h.index]? else none

/-- The symbol of a name. -/
def symbolByName? (g : Grammar) (name : String) : Option Symbol :=
  g.symbols.find? fun s => s.name == name

/-- Whether the grammar describes a scanner only. -/
def isLexerOnly (g : Grammar) : Bool := g.rules.isNone

/-- A rule as text: `left ::= a b c`. -/
def ruleText (g : Grammar) (r : Rule) : String :=
  g.symbolName r.left ++ " ::=" ++
    if r.right.isEmpty then " %empty"
    else String.join (r.right.map fun s => " " ++ g.symbolName s.target)

end Grammar

end GrammarTables
