import GrammarTables.Grammar.Basic
/-
# Expressions over character sets

The meaning of a lexical rule without its spelling: flags, case, named patterns and operators
on sets are resolved, and what is left are sets of code points, sequences, alternatives and
repetitions.  This is the form that automata are built from.
-/

namespace GrammarTables.Lexical

/-- A regular expression over sets of code points. -/
inductive Expr
  /-- One code point of the set. -/
  | chars (set : CharSet)
  | seq (items : List Expr)
  | alt (items : List Expr)
  /-- At least `min` copies, and at most `max` if that is given. -/
  | repeated (inner : Expr) (min : Nat) (max : Option Nat)

/-- A lexical rule: what it matches, and what must not follow. -/
structure RuleExpr where
  body : List Expr
  lookahead : Option CharSet := none

end GrammarTables.Lexical
