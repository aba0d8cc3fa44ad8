import GrammarTables.Anchor
import GrammarTables.Ascending
import GrammarTables.CharClass
import GrammarTables.CharSet.Basic
import GrammarTables.CharSet.Casing
import GrammarTables.CharSet.Property
import GrammarTables.CharSet.Text
import GrammarTables.Diagnostic
import GrammarTables.Grammar.Basic
import GrammarTables.Grammar.Draft
import GrammarTables.Grammar.Error
import GrammarTables.Grammar.Symbol
import GrammarTables.Graph.Explore
import GrammarTables.Graph.Reach
import GrammarTables.Halving
import GrammarTables.Interning
import GrammarTables.Lexical.Alphabet
import GrammarTables.Lexical.Build
import GrammarTables.Lexical.Cells
import GrammarTables.Lexical.Dfa
import GrammarTables.Lexical.Expr
import GrammarTables.Lexical.Findings
import GrammarTables.Lexical.Nfa
import GrammarTables.Lexical.Plan
import GrammarTables.Lexical.Resolve
import GrammarTables.Lexical.Table
import GrammarTables.Lr.Automaton
import GrammarTables.Lr.Build
import GrammarTables.Lr.Describe
import GrammarTables.Lr.Entries
import GrammarTables.Lr.Findings
import GrammarTables.Lr.First
import GrammarTables.Lr.Lookahead
import GrammarTables.Lr.Precedence
import GrammarTables.Lr.Productions
import GrammarTables.Lr.Table
import GrammarTables.Parse.Machine
import GrammarTables.Parse.Stacks
import GrammarTables.Parse.Tree
import GrammarTables.Regex.Basic
import GrammarTables.Regex.Dialect
import GrammarTables.Regex.Lexer
import GrammarTables.Regex.Listed
import GrammarTables.Regex.Parser
import GrammarTables.Regex.Token
import GrammarTables.Regex.Tree
import GrammarTables.Scan.Position
import GrammarTables.Scan.Scanner
import GrammarTables.Text.Quoted
import GrammarTables.Proofs.Ordered
import GrammarTables.Proofs.Numbering
import GrammarTables.Proofs.Reachability
import GrammarTables.Proofs.Exploration
import GrammarTables.Proofs.CharSet
import GrammarTables.Proofs.Regex.Proper
import GrammarTables.Proofs.Grammar.Frozen
import GrammarTables.Proofs.Lexical.Meaning
import GrammarTables.Proofs.Lexical.Resolve
import GrammarTables.Proofs.Lexical.Thompson
import GrammarTables.Proofs.Lexical.Rules
import GrammarTables.Proofs.Lexical.Intervals
import GrammarTables.Proofs.Lexical.Classes
import GrammarTables.Proofs.Lexical.Subsets
import GrammarTables.Proofs.Lexical.Tracking
import GrammarTables.Proofs.Lexical.Recognizer
import GrammarTables.Proofs.Lexical.Failure
import GrammarTables.Proofs.Lexical.Encoding
import GrammarTables.Proofs.Lexical.Words
import GrammarTables.Proofs.Scan.Walk
import GrammarTables.Proofs.Scan.MaximalMunch
import GrammarTables.Proofs.Scan.Bounds
import GrammarTables.Proofs.Scan.Coverage
import GrammarTables.Proofs.Scan.ActiveRules
import GrammarTables.Proofs.Scan.EndOfInput
import GrammarTables.Proofs.Arrays
import GrammarTables.Proofs.Scan.Progress
import GrammarTables.Proofs.Scan.Order
import GrammarTables.Proofs.Lr.Productions
import GrammarTables.Proofs.Lr.First
import GrammarTables.Proofs.Lr.Automaton
import GrammarTables.Proofs.Lr.Flow
import GrammarTables.Proofs.Lr.Lookahead
import GrammarTables.Proofs.Lr.Table
import GrammarTables.Proofs.Lr.Bounds
import GrammarTables.Proofs.Lr.Viable
import GrammarTables.Proofs.Lr.Derivation
import GrammarTables.Proofs.Lr.Moves
import GrammarTables.Proofs.Lr.Sentential
import GrammarTables.Proofs.Lr.Beginnings
import GrammarTables.Proofs.Lr.Canonical
import GrammarTables.Proofs.Lr.Precedence
import GrammarTables.Proofs.Lr.Operators
import GrammarTables.Proofs.Lr.Conflicts
import GrammarTables.Proofs.Parse.Step
import GrammarTables.Proofs.Parse.Soundness
import GrammarTables.Proofs.Parse.Completeness
import GrammarTables.Proofs.Parse.DefaultReductions
import GrammarTables.Proofs.Parse.Safety
import GrammarTables.Proofs.Parse.Stacks
import GrammarTables.Proofs.Parse.ValidPrefix
import GrammarTables.Proofs.Parse.Operators
import GrammarTables.Proofs.Parse.Spans
import GrammarTables.Proofs.Parse.Conservation
import GrammarTables.Proofs.Grammar.Workshop
import GrammarTables.Proofs.Grammar.Checked
import GrammarTables.Proofs.Grammar.Numbered
import GrammarTables.Proofs.Regex.Syntax
import GrammarTables.Proofs.Regex.Reading
import GrammarTables.Proofs.FirstOccurrence
import GrammarTables.Proofs.Lexical.CodePoints
import GrammarTables.Proofs.Lexical.Agreement
import GrammarTables.Proofs.Lexical.Embedding
import GrammarTables.Proofs.Lexical.InPlace
import GrammarTables.Proofs.Lexical.Leftover
import GrammarTables.Proofs.CharSet.Algebra
import GrammarTables.Proofs.CharSet.Words
import GrammarTables.Proofs.Lexical.Acceptance
import GrammarTables.Proofs.Lexical.Reached
import GrammarTables.Proofs.Scan.NeverMatched
import GrammarTables.Proofs.Lexical.Lossless
import GrammarTables.Proofs.Scan.Overlap
import GrammarTables.Proofs.Lexical.Instances
import GrammarTables.Proofs.Scan.ClassWords
import GrammarTables.Proofs.Regex.Quoting
import GrammarTables.Proofs.Lexical.ClassItems
import GrammarTables.Proofs.Lexical.Expansion
import GrammarTables.Proofs.Lexical.SetForms
import GrammarTables.Proofs.Regex.Places
import GrammarTables.Proofs.Lexical.Constants
import GrammarTables.Proofs.Lr.Symbols
import GrammarTables.Proofs.Lr.States
import GrammarTables.Proofs.Rounds
import GrammarTables.Proofs.Lr.Rewriting
import GrammarTables.Proofs.Lr.Passes
import GrammarTables.Proofs.Lr.Propagation
import GrammarTables.Proofs.Lexical.Partition
import GrammarTables.Proofs.Lexical.Determinized
import GrammarTables.Proofs.Scan.Fallbacks
