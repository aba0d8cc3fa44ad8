/-
# Settling conflicts

When a shift and a reduction, or several reductions, claim the same table entry, the choice is
made by two small rules.  A shift and a reduction are compared by the precedence of the
lookahead and of the rule; among reductions the rule declared first wins.

The functions are `resolve_shift_reduce` and `resolve_reduce_reduce`.
-/

namespace GrammarTables

/-- What an operator does between operands of its own level. -/
inductive Assoc
  | left
  | right
  | nonAssoc
deriving DecidableEq

namespace Lr

/-- A declared precedence.  Levels begin at 1, and a higher level binds tighter. -/
structure Precedence where
  level : Nat
  assoc : Assoc
deriving DecidableEq

/-- How a conflict between a shift and a reduction is settled. -/
inductive ShiftReduce
  /-- The lookahead binds tighter, or associates to the right. -/
  | shift
  /-- The rule binds tighter, or the lookahead associates to the left. -/
  | reduce
  /-- Equal levels that do not associate: reduce, and report an error. -/
  | nonAssoc
  /-- A precedence is missing: shift, and report a warning. -/
  | shiftByDefault
deriving DecidableEq

/-- Settles a conflict between reducing a rule and shifting the lookahead. -/
def resolveShiftReduce (rule lookahead : Option Precedence) : ShiftReduce :=
  match rule, lookahead with
  | some r, some l =>
    if l.level < r.level then .reduce
    else if r.level < l.level then .shift
    else match l.assoc with
      | .left => .reduce
      | .right => .shift
      | .nonAssoc => .nonAssoc
  | _, _ => .shiftByDefault

/-- The winner among rules that reduce on the same lookahead: the one declared first. -/
def resolveReduceReduce (rules : List Nat) : Option Nat := rules.min?

end Lr

end GrammarTables
