import GrammarTables.Anchor
import GrammarTables.Lr.Precedence
import GrammarTables.Regex.Basic
/-
# The parts of a grammar

Symbols, lexer states, named patterns, lexical rules, rules, priorities and inputs.  Parts
refer to each other by index: in a draft the index counts parts in the order of declaration,
in a finished grammar symbols are numbered anew.

The function is `is_terminal` of a kind of symbols.
-/

namespace GrammarTables

/-! ## 1. Symbols -/

/-- The kinds of symbols. -/
inductive SymbolKind
  | terminal
  /-- A terminal whose text a class terminal matches too. -/
  | softTerminal
  | nonterminal
  /-- A symbol that scanning produces and parsing never sees. -/
  | layout
deriving DecidableEq

namespace SymbolKind

/-- Whether the kind is one of the two kinds of terminals. -/
def isTerminal : SymbolKind → Bool
  | .terminal | .softTerminal => true
  | .nonterminal | .layout => false

/-- The words for a kind. -/
def text : SymbolKind → String
  | .terminal => "terminal"
  | .softTerminal => "soft terminal"
  | .nonterminal => "nonterminal"
  | .layout => "layout"

end SymbolKind

/-- A symbol. -/
structure Symbol where
  index : Nat
  name : String
  kind : SymbolKind
  typeTag : Option String := none
  /-- The terminal that a soft terminal refines. -/
  softClass : Option Nat := none
  origin : Option Anchor := none
deriving DecidableEq

/-- The name of the terminal for the end of the input. -/
def eoiName : String := "eoi"

/-- The name of the terminal that marks errors. -/
def errorName : String := "error"

/-! ## 2. Lexical parts -/

/-- A mode of the scanner. -/
structure LexerState where
  name : String
  origin : Option Anchor := none
deriving DecidableEq

/-- A regular expression that others refer to by name. -/
structure NamedPattern where
  name : String
  regex : Regex
  origin : Option Anchor := none

/-- The kinds of lexical rules. -/
inductive LexicalKind
  | normal
  /-- Produces a soft terminal. -/
  | soft
  /-- Matches a class of words, some of which may belong to other rules. -/
  | wordClass
deriving DecidableEq

/-- The word for a kind of lexical rule. -/
def LexicalKind.text : LexicalKind → String
  | .normal => "normal"
  | .soft => "soft"
  | .wordClass => "class"

/-- A regular expression bound to a symbol. -/
structure LexicalRule where
  kind : LexicalKind
  symbol : Nat
  regex : Regex
  /-- The lexer states in which the rule is active, ascending. -/
  states : List Nat
  priority : Int := 0
  /-- The class rule that the rule refines. -/
  classRule : Option Nat := none
  origin : Option Anchor := none

/-! ## 3. Rules -/

/-- One element of the right side of a rule. -/
structure SymbolRef where
  target : Nat
  label : Option String := none
  origin : Option Anchor := none
deriving DecidableEq

/-- A rule `left ::= right`. -/
structure Rule where
  left : Nat
  right : List SymbolRef
  label : Option String := none
  /-- The terminal whose precedence the rule takes, if it is given. -/
  precedence : Option Nat := none
  origin : Option Anchor := none
deriving DecidableEq

/-- Terminals that share a level of precedence. -/
structure Priority where
  assoc : Assoc
  symbols : List Nat
  origin : Option Anchor := none
deriving DecidableEq

/-- A nonterminal that a parse can begin with. -/
structure Input where
  target : Nat
  /-- Whether the end of the input has to follow. -/
  hasEoi : Bool
  origin : Option Anchor := none
deriving DecidableEq

end GrammarTables
