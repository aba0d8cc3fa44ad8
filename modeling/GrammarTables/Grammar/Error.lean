import GrammarTables.Diagnostic
import GrammarTables.Grammar.Symbol
/-
# Rejected declarations and builds

The reasons why a declaration is not accepted into a grammar, and the reasons why tables are
not built for a grammar.

The messages are those that `to_diagnostic` gives.
-/

namespace GrammarTables

/-- What an index counts. -/
inductive Namespace
  | symbol
  | pattern
  | lexerState
  | lexicalRule
  | rule
deriving DecidableEq

/-- The words for a namespace. -/
def Namespace.text : Namespace → String
  | .symbol => "symbol"
  | .pattern => "pattern"
  | .lexerState => "lexer state"
  | .lexicalRule => "lexical rule"
  | .rule => "rule"

/-! ## 1. Rejected declarations -/

/-- Why a declaration was rejected. -/
inductive GrammarError
  | duplicateName (space : Namespace) (name : String)
  | unknownEntity (space : Namespace) (index : Nat)
  /-- The kind of lexical rule cannot produce the symbol. -/
  | kindMismatch (kind : LexicalKind) (symbol : String)
  | noStates (symbol : String)
  | notNonterminal (name : String)
  | notTerminal (name : String)
  | notRuleSymbol (name : String)
  | notClassRule (index : Nat)
deriving DecidableEq

namespace GrammarError

/-- The text of a rejection. -/
def message : GrammarError → String
  | .duplicateName space name => space.text ++ s!" `{name}' already exists"
  | .unknownEntity space index => space.text ++ s!" #{index} does not belong to this grammar"
  | .kindMismatch kind symbol => kind.text ++ s!" lexical rule cannot be bound to `{symbol}'"
  | .noStates symbol => s!"lexical rule for `{symbol}' has no lexer states"
  | .notNonterminal name => s!"`{name}' should be a nonterminal"
  | .notTerminal name => s!"`{name}' should be a terminal"
  | .notRuleSymbol name => s!"`{name}' cannot appear on the right-hand side of a rule"
  | .notClassRule index => s!"lexical rule #{index} is not a class rule"

/-- A rejection as a finding about the declaration at `origin`. -/
def diagnostic (e : GrammarError) (origin : Option Anchor) : Diagnostic :=
  .error .structural e.message [origin]

end GrammarError

/-! ## 2. Rejected builds -/

/-- Why no tables were built. -/
inductive BuildError
  | noRules
  | noInputs
deriving DecidableEq

namespace BuildError

/-- The text of a rejection. -/
def message : BuildError → String
  | .noRules => "grammar has no rules (lexer-only grammar)"
  | .noInputs => "grammar has rules but no input declarations"

/-- A rejection as a finding. -/
def diagnostic (e : BuildError) : Diagnostic := .error .buildPrecondition e.message []

end BuildError

end GrammarTables
