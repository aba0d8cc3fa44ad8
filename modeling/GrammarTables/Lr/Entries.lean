import GrammarTables.Lr.Lookahead
import GrammarTables.Lr.Table
/-
# Entries of the action table

What a state does before a terminal: the shift that the automaton has, the reductions whose
lookaheads contain the terminal, and the choice between them.

The functions are `terminal` and `rule` of the table of precedences, and of `build` the loop over
the terminals of a state.
-/

namespace GrammarTables.Lr

/-! ## 1. Precedences -/

/-- The declared precedences of the terminals.  A terminal that is listed twice has the last
one. -/
def terminalPrecedences (g : Grammar) : Array (Option Precedence) :=
  g.priorityList.zipIdx.foldl (fun table (priority, i) =>
    priority.symbols.foldl (fun table t => table.setIfInBounds t (some ⟨i + 1, priority.assoc⟩))
      table) (Array.replicate g.terminals none)

/-- The terminal whose precedence a rule has: the one given, or the last one of its right side. -/
def precedenceTerminal (terminals : Nat) (r : Rule) : Option Nat :=
  match r.precedence with
  | some t => some t
  | none => (r.right.map (·.target)).findRev? (· < terminals)

/-- The precedence of a rule. -/
def rulePrecedence (table : Array (Option Precedence)) (r : Rule) : Option Precedence :=
  (precedenceTerminal table.size r).bind fun t => table.getD t none

/-! ## 2. One entry -/

/-- What the choice of an entry depends on. -/
structure Policy where
  /-- The number of rules of the grammar; later productions belong to inputs. -/
  rules : Nat
  rulePrecedence : Nat → Option Precedence
  terminalPrecedence : Nat → Option Precedence

namespace Policy

/-- The action of reducing a production: completing an input means acceptance. -/
def reduceAction (policy : Policy) (rule : Nat) : Action :=
  if rule < policy.rules then .reduce rule else .accept

/-- The entry of state `s` and terminal `a`, given the shift and the productions that may be
reduced, and the conflicts it takes.  An input that need not be followed by the end of the input
stops only where it cannot go on, so a shift wins over acceptance. -/
def entry (policy : Policy) (s a : Nat) (shift : Option Nat) (rules : List Nat) :
    Action × List Conflict :=
  match resolveReduceReduce rules, shift with
  | none, none => (.error, [])
  | none, some t => (.shift t, [])
  | some winner, shift =>
    let conflict (kind : ConflictKind) (rules : List Nat) : Conflict := ⟨s, a, kind, rules⟩
    let several := if 1 < rules.length then [conflict .reduceReduce rules] else []
    match shift with
    | none => (policy.reduceAction winner, several)
    | some t =>
      if policy.rules ≤ winner then (.shift t, several)
      else
        let outcome :=
          resolveShiftReduce (policy.rulePrecedence winner) (policy.terminalPrecedence a)
        match outcome with
        | .shift => (.shift t, several)
        | .reduce => (.reduce winner, several)
        | .nonAssoc => (.reduce winner, several ++ [conflict (.shiftReduce outcome) [winner]])
        | .shiftByDefault => (.shift t, several ++ [conflict (.shiftReduce outcome) [winner]])

end Policy

/-! ## 3. Rows -/

/-- The productions that may be reduced before a terminal, ascending. -/
def candidates (rs : Reductions) (a : Nat) : List Nat :=
  rs.filterMap fun (rule, las) => if las.contains a then some rule else none

/-- The entries of a state. -/
def rowEntries (policy : Policy) (terminals : Nat) (s : Nat) (state : ItemState)
    (rs : Reductions) : List (Action × List Conflict) :=
  (List.range terminals).map fun a => policy.entry s a (state.goto? a) (candidates rs a)

/-- The states after the nonterminals. -/
def gotoRow (terminals nonterminals : Nat) (state : ItemState) : List (Option Nat) :=
  (List.range nonterminals).map fun n => state.goto? (terminals + n)

/-- The rule that a row of actions reduces wherever it is no error, if it does nothing else. -/
def defaultOf (row : List Action) : Option Nat :=
  match row.filter (· ≠ .error) with
  | .reduce r :: rest => if rest.all (· = .reduce r) then some r else none
  | _ => none

end GrammarTables.Lr
