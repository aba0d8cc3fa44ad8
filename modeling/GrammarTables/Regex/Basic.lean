import GrammarTables.Diagnostic
import GrammarTables.Regex.Listed
import GrammarTables.Regex.Parser
/-
# Regular expressions

A `Regex` is a text together with its tree and the number of mistakes found in it.  A regular
expression with mistakes is still a value: whoever needs its meaning asks `isValid` first.

The functions are `parse`, `literal`, `is_valid`, `error_count` and `constant` of a regular
expression.
-/

namespace GrammarTables

/-- A regular expression that was read. -/
structure Regex where
  text : String
  root : Regex.Tree
  /-- The number of mistakes. -/
  errors : Nat

namespace Regex

/-- The finding for a mistake in `text`, which begins at `base`. -/
def Issue.diagnostic (issue : Issue) (text : String) (base : Anchor) : Diagnostic :=
  .error .regexSyntax (issue.fault.message ++ s!" in `{text}'")
    [some (base.narrow text issue.range.start issue.range.stop)]

/-- Reads a regular expression.  Each mistake is a finding, placed relative to `origin`, where
the text begins in its resource. -/
def parse (text : String) (origin : Option Anchor) (d : Dialect := .listed) :
    Regex × List Diagnostic :=
  let (root, issues) := parseText d text.toList
  ({ text, root, errors := issues.length },
    issues.map (·.diagnostic text (origin.getD {})))

/-- One `char` tree for each character of a text that begins at byte `offset`. -/
def charTrees (offset : Nat) : List Char → List Tree
  | [] => []
  | c :: cs =>
    let stop := offset + c.utf8Size
    .char ⟨offset, stop⟩ c.toNat :: charTrees stop cs

/-- The regular expression that matches exactly `text`. -/
def literal (text : String) : Regex :=
  let cs := text.toList
  { text
    root := match charTrees 0 cs with
      | [] => .empty ⟨0, byteLength cs⟩
      | [t] => t
      | ts => .seq ⟨0, byteLength cs⟩ ts
    errors := 0 }

/-- Whether the regular expression has no mistakes. -/
def isValid (re : Regex) : Bool := re.errors = 0

/-- The only text that a valid regular expression matches, if it consists of plain
characters. -/
def constant? (re : Regex) : Option (List Char) :=
  if re.isValid then re.root.constant? else none

end Regex

end GrammarTables
