import GrammarTables.CharSet.Casing
/-
# Character classes

A character class as it is written: some members, some excluded sets, and perhaps a negation
of the whole.  The negations stay unresolved, because case folding, which depends on where the
class is used, has to reach the positive sets before they are complemented.

The functions are `of`, `not`, `add` and `resolve` of a class.
-/

namespace GrammarTables

/-- `members`, and the complement of each set in `excluded`; the complement of all that if
`negated`. -/
structure CharClass where
  members : CharSet := .empty
  excluded : List CharSet := []
  negated : Bool := false
deriving DecidableEq

namespace CharClass

/-- Exactly the members of a set. -/
def of (s : CharSet) : CharClass := { members := s }

/-- Every character outside a set. -/
def outside (s : CharSet) : CharClass := { members := s, negated := true }

/-- Whether nothing at all was put into the class. -/
def isEmpty (k : CharClass) : Bool := k.members.isEmpty && k.excluded.isEmpty && !k.negated

/-- The characters of the class, with `fold` applied to each positive set before any
complement is taken. -/
def resolve (k : CharClass) (fold : CharSet → CharSet) : CharSet :=
  let s := k.excluded.foldl (fun s x => s.union (fold x).compl) (fold k.members)
  if k.negated then s.compl else s

/-- Adds an item to the class.  A plain set joins the members, the outside of a plain set is
kept as an exclusion, anything else is resolved first. -/
def add (k item : CharClass) : CharClass :=
  if item.excluded.isEmpty then
    if item.negated then { k with excluded := k.excluded ++ [item.members] }
    else { k with members := k.members.union item.members }
  else { k with members := k.members.union (item.resolve id) }

/-- Whether the class contains `c`, without folding. -/
def contains (k : CharClass) (c : Nat) : Bool := (k.resolve id).contains c

end CharClass

end GrammarTables
