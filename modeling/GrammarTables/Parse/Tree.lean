import GrammarTables.Scan.Scanner
/-
# Derivation trees

A leaf is a token, a branch is a rule applied to the trees of its right side.

The functions are `symbol`, `span` and `bracketed` of a tree.
-/

namespace GrammarTables.Parse

open Scan (Token)

/-- A derivation tree. -/
inductive Tree
  | leaf (token : Token)
  | branch (rule symbol : Nat) (span : Span) (children : List Tree)

namespace Tree

/-- The symbol at the root. -/
def symbol : Tree → Nat
  | .leaf t => t.symbol
  | .branch _ symbol _ _ => symbol

/-- The part of the text that the tree covers. -/
def span : Tree → Span
  | .leaf t => t.span
  | .branch _ _ span _ => span

mutual

/-- The tokens of the tree, with every branch in parentheses that has not exactly one child. -/
def bracketed : Tree → String
  | .leaf t => t.text
  | .branch _ _ _ [child] => bracketed child
  | .branch _ _ _ children => "(" ++ bracketedAll children ++ ")"

/-- The bracketed texts of a list of trees, one after the other. -/
def bracketedAll : List Tree → String
  | [] => ""
  | t :: ts => bracketed t ++ bracketedAll ts

end

mutual

/-- The tree and all its parts, each before its own parts. -/
def preorder (t : Tree) : List Tree :=
  t :: match t with
    | .leaf _ => []
    | .branch _ _ _ children => preorderAll children

/-- `preorder` of each tree of a list. -/
def preorderAll : List Tree → List Tree
  | [] => []
  | t :: ts => preorder t ++ preorderAll ts

end

/-- The tokens at the leaves, from left to right. -/
def leaves (t : Tree) : List Token :=
  t.preorder.filterMap fun
    | .leaf token => some token
    | .branch _ _ _ _ => none

end Tree

end GrammarTables.Parse
