import GrammarTables.Lr.Describe
import GrammarTables.Lr.Entries
import GrammarTables.Lr.Findings
/-
# Building parser tables

The LALR(1) tables of a grammar with rules and inputs.  Tables are always complete: conflicts are
settled, kept with the tables and reported.

The function is `build`.
-/

namespace GrammarTables.Lr

/-- Choices for building tables. -/
structure ParseOptions where
  /-- Whether to add a description of the construction. -/
  debug : Bool := false
  /-- Whether states that do nothing but reduce one rule do so without looking at what follows. -/
  defaultReductions : Bool := true

/-- The choices that a grammar makes between actions. -/
def policyOf (g : Grammar) : Policy :=
  let terminals := terminalPrecedences g
  let rules := (g.ruleList.map (rulePrecedence terminals)).toArray
  { rules := g.ruleList.length
    rulePrecedence := fun r => rules.getD r none
    terminalPrecedence := fun t => terminals.getD t none }

/-- The tables for an automaton and its reductions. -/
def tableOf (g : Grammar) (a : Automaton) (rs : Array Reductions) (options : ParseOptions) :
    ParseTable :=
  let policy := policyOf g
  let states := a.states.toList.zipIdx
  let entries := states.map fun (state, s) =>
    rowEntries policy g.terminals s state (rs.getD s [])
  let rows := entries.map fun row => row.map (·.1)
  { terminals := g.terminals
    nonterminals := g.nonterminals
    states := a.size
    actions := rows.flatten.toArray
    gotos := (states.flatMap fun (state, _) => gotoRow g.terminals g.nonterminals state).toArray
    defaultReduce := (rows.map fun row =>
      if options.defaultReductions then defaultOf row else none).toArray
    ruleLeft := (g.ruleList.map (·.left)).toArray
    ruleLength := (g.ruleList.map (·.right.length)).toArray
    startStates := a.starts.toArray
    finalStates := a.finals.toArray
    conflicts := entries.flatMap fun row => row.flatMap (·.2) }

/-- Builds the parser tables of a grammar, with everything there is to say about its rules. -/
def build (g : Grammar) (options : ParseOptions) :
    Except BuildError (ParseTable × List Diagnostic) :=
  if g.rules.isNone then .error .noRules
  else if g.inputList.isEmpty then .error .noInputs
  else
    let c := Context.ofProductions (.ofGrammar g)
    let a := Automaton.ofProductions c.productions
    let rs := reductions c a g.inputList
    let t := tableOf g a rs options
    .ok ({ t with debug := if options.debug then some (describe g c a rs t) else none },
      symbolFindings g ++ conflictFindings g c.productions t.conflicts)

end GrammarTables.Lr
