import GrammarTables.Grammar.Basic
/-
# Productions

The rules of a grammar as lists of symbol indices, with one more rule per input: rule
`rules + i` has the target of input `i` as its right side and a nonterminal of its own, number
`symbols + i`, as its left side.

The functions are `new`, `is_nonterminal` and `is_augmented` of the productions.
-/

namespace GrammarTables.Lr

/-- The rules of a grammar and of its inputs. -/
structure Productions where
  left : Array Nat
  right : Array (List Nat)
  /-- The rules of each symbol, ascending. -/
  byLeft : Array (List Nat)
  terminals : Nat
  /-- The number of terminals and nonterminals; the nonterminals of inputs follow. -/
  symbols : Nat
  /-- The number of rules of the grammar; those of inputs follow. -/
  rules : Nat

namespace Productions

/-- The productions of a grammar. -/
def ofGrammar (g : Grammar) : Productions :=
  let rules := g.ruleList
  let inputs := g.inputList
  let symbols := g.grammarSymbols
  let left := rules.map (·.left) ++ (List.range inputs.length).map (symbols + ·)
  let right := rules.map (fun r => r.right.map (·.target)) ++ inputs.map fun i => [i.target]
  { left := left.toArray
    right := right.toArray
    byLeft := ((List.range (symbols + inputs.length)).map fun x =>
      left.zipIdx.filterMap fun (l, r) => if l = x then some r else none).toArray
    terminals := g.terminals
    symbols
    rules := rules.length }

/-- The number of productions. -/
def size (p : Productions) : Nat := p.left.size

/-- The right side of a production. -/
def rightOf (p : Productions) (rule : Nat) : List Nat := p.right.getD rule []

/-- The left side of a production. -/
def leftOf (p : Productions) (rule : Nat) : Nat := p.left.getD rule 0

/-- The productions of a symbol. -/
def rulesOf (p : Productions) (symbol : Nat) : List Nat := p.byLeft.getD symbol []

/-- Whether a symbol is a nonterminal. -/
def isNonterminal (p : Productions) (symbol : Nat) : Bool := p.terminals ≤ symbol

/-- Whether a production belongs to an input. -/
def isAugmented (p : Productions) (rule : Nat) : Bool := p.rules ≤ rule

/-- The productions of the inputs. -/
def startRules (p : Productions) : List Nat := (List.range (p.size - p.rules)).map (p.rules + ·)

end Productions

end GrammarTables.Lr
