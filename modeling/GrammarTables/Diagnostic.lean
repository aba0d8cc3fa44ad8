import GrammarTables.Anchor
/-
# Findings

What the construction of a grammar or of its tables has to say is a list of `Diagnostic`s in
the order of discovery.  Nothing is printed on the way.

The functions are `error` and `warning`, with the places that `at` and `at_all` add to a finding,
and the counts of a collection.
-/

namespace GrammarTables

/-- How bad a finding is. -/
inductive Severity
  | warning
  | error
deriving DecidableEq

namespace Severity

/-- The word for a severity. -/
def text : Severity → String
  | .warning => "warning"
  | .error => "error"

/-- A warning is less severe than an error. -/
def rank : Severity → Nat
  | .warning => 0
  | .error => 1

/-- The more severe of two. -/
def worse (a b : Severity) : Severity := if a.rank < b.rank then b else a

end Severity

/-- What a finding is about. -/
inductive Finding
  /-- A part of the grammar that cannot be registered, resolved or used. -/
  | structural
  /-- A malformed regular expression. -/
  | regexSyntax
  /-- Two rules of equal priority accept the same text. -/
  | lexicalAmbiguity
  /-- A lexical rule that never wins. -/
  | unreachableRule
  /-- A lexical rule that accepts the empty text. -/
  | emptyMatch
  /-- A terminal that no rule uses. -/
  | unusedTerminal
  /-- A nonterminal that no input reaches. -/
  | unreachableNonterminal
  /-- A nonterminal without rules. -/
  | undefinedNonterminal
  /-- A table entry claimed by more than one action. -/
  | grammarConflict
  /-- A condition for building tables that does not hold. -/
  | buildPrecondition
deriving DecidableEq

/-- One finding, with the places it is about. -/
structure Diagnostic where
  severity : Severity
  kind : Finding
  message : String
  anchors : List Anchor := []
deriving DecidableEq

namespace Diagnostic

/-- An error at the places that are known. -/
def error (kind : Finding) (message : String) (places : List (Option Anchor)) : Diagnostic :=
  { severity := .error, kind, message, anchors := places.filterMap id }

/-- A warning at the places that are known. -/
def warning (kind : Finding) (message : String) (places : List (Option Anchor)) : Diagnostic :=
  { severity := .warning, kind, message, anchors := places.filterMap id }

/-- Whether the finding is an error. -/
def isError (d : Diagnostic) : Bool := d.severity = .error

/-- `place: severity: message`, with the first place if there is any. -/
def text (d : Diagnostic) : String :=
  let body := d.severity.text ++ ": " ++ d.message
  match d.anchors with
  | [] => body
  | a :: _ => a.text ++ ": " ++ body

end Diagnostic

/-! ## Counting findings -/

/-- What a list of findings amounts to. -/
structure Tally where
  errors : Nat
  warnings : Nat
  worst : Option Severity
deriving DecidableEq

namespace Tally

/-- The tally of a list of findings. -/
def of (ds : List Diagnostic) : Tally :=
  { errors := ds.countP Diagnostic.isError
    warnings := ds.countP (!·.isError)
    worst := ds.foldl (fun w d => some (match w with
      | none => d.severity
      | some s => s.worse d.severity)) none }

end Tally

/-- The findings of one kind. -/
def findingsOf (kind : Finding) (ds : List Diagnostic) : List Diagnostic :=
  ds.filter fun d => d.kind = kind

theorem findingsOf_append (kind : Finding) (ds ds' : List Diagnostic) :
    findingsOf kind (ds ++ ds') = findingsOf kind ds ++ findingsOf kind ds' :=
  List.filter_append _ _

theorem findingsOf_eq_nil {kind : Finding} {ds : List Diagnostic}
    (h : ∀ d ∈ ds, d.kind ≠ kind) : findingsOf kind ds = [] :=
  List.filter_eq_nil_iff.mpr fun d hd => by simpa using h d hd

theorem findingsOf_eq_self {kind : Finding} {ds : List Diagnostic}
    (h : ∀ d ∈ ds, d.kind = kind) : findingsOf kind ds = ds :=
  List.filter_eq_self.mpr fun d hd => by simpa using h d hd

end GrammarTables
