import GrammarTables.CharClass
/-
# Trees of regular expressions

A regular expression as it was written: every node knows the bytes it came from, inline flags
and references to named patterns are still there, and a part that could not be read is a
placeholder.

The functions are `cover` of a range of bytes, and `constant`, `collect_constant`, `walk` and
`references` of a tree.
-/

namespace GrammarTables.Regex

/-! ## 1. Parts of a tree -/

/-- A range of bytes of the text of a regular expression, the end exclusive. -/
structure TextRange where
  start : Nat
  stop : Nat
deriving DecidableEq

namespace TextRange

/-- The empty range at an offset. -/
def point (offset : Nat) : TextRange := ⟨offset, offset⟩

/-- The smallest range that covers both. -/
def cover (a b : TextRange) : TextRange := ⟨min a.start b.start, max a.stop b.stop⟩

end TextRange

/-- The flags that an inline flag group such as `(?i-s:..)` switches on or off. -/
structure FlagChange where
  caseInsensitive : Option Bool := none
  dotAll : Option Bool := none
deriving DecidableEq

/-- Operators on character sets. -/
inductive SetOp
  | difference
  | union
  | intersection
deriving DecidableEq

/-! ## 2. Trees -/

/-- A regular expression. -/
inductive Tree
  /-- The empty text. -/
  | empty (range : TextRange)
  /-- One code point. -/
  | char (range : TextRange) (c : Nat)
  /-- A bracket expression, a predefined class or a Unicode property. -/
  | set (range : TextRange) (chars : CharClass)
  /-- The dot. -/
  | any (range : TextRange)
  /-- The end of the input. -/
  | eoi (range : TextRange)
  /-- A reference to a named pattern. -/
  | expand (range : TextRange) (name : String)
  | seq (range : TextRange) (items : List Tree)
  | alt (range : TextRange) (items : List Tree)
  | group (range : TextRange) (flags : Option FlagChange) (inner : Tree)
  /-- A negative lookahead. -/
  | notFollowedBy (range : TextRange) (inner : Tree)
  /-- At least `min` and at most `max` copies. -/
  | repeated (range : TextRange) (inner : Tree) (min : Nat) (max : Option Nat)
  | algebra (range : TextRange) (op : SetOp) (left right : Tree)
  /-- Stands for a part that could not be read. -/
  | placeholder (range : TextRange)

namespace Tree

/-- The bytes the tree came from. -/
def range : Tree → TextRange
  | .empty r | .char r _ | .set r _ | .any r | .eoi r | .expand r _ | .seq r _ | .alt r _
  | .group r _ _ | .notFollowedBy r _ | .repeated r _ _ _ | .algebra r _ _ _
  | .placeholder r => r

/-- The range that covers all trees of a list. -/
def coverAll : List Tree → TextRange
  | [] => .point 0
  | t :: ts => ts.foldl (fun r u => r.cover u.range) t.range

/-! ## 3. Reading a tree -/

mutual

/-- The tree and all its parts, each before its own parts. -/
def preorder (t : Tree) : List Tree :=
  t :: match t with
    | .seq _ items | .alt _ items => preorderAll items
    | .group _ _ inner | .notFollowedBy _ inner | .repeated _ inner _ _ => preorder inner
    | .algebra _ _ left right => preorder left ++ preorder right
    | .empty _ | .char _ _ | .set _ _ | .any _ | .eoi _ | .expand _ _ | .placeholder _ => []

/-- `preorder` of each tree of a list. -/
def preorderAll : List Tree → List Tree
  | [] => []
  | t :: ts => preorder t ++ preorderAll ts

end

/-- The names of the patterns the tree refers to, from left to right. -/
def references (t : Tree) : List String :=
  t.preorder.filterMap fun
    | .expand _ name => some name
    | _ => none

mutual

/-- The only text that the tree matches, if it consists of plain characters. -/
def constant? : Tree → Option (List Char)
  | .empty _ => some []
  | .char _ c => if isScalar c then some [Char.ofNat c] else none
  | .seq _ items => constantAll? items
  | .group _ none inner => constant? inner
  | _ => none

/-- The texts of a list of trees, one after the other. -/
def constantAll? : List Tree → Option (List Char)
  | [] => some []
  | t :: ts => do
    let first ← constant? t
    let rest ← constantAll? ts
    return first ++ rest

end

end Tree

end GrammarTables.Regex
