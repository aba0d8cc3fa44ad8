import GrammarTables.Lexical.Findings
/-
# Building scanner tables

Everything that the lexical rules of a grammar say, as one table: the automaton of all lexer
states at once, with its cells encoded, its classes merged and the words of class rules beside
it.  Whatever is wrong with single rules is reported; tables are built from the rest.

This is the second half of `build`, with `dump`.
-/

namespace GrammarTables.Lexical

/-- Choices for building tables. -/
structure LexOptions where
  /-- Whether to add a description of the automaton. -/
  debug : Bool := false
  /-- The largest number of copies that a repetition may ask for. -/
  maxRepeat : Nat := 1000

/-! ## 1. Classes of characters -/

/-- The classes of the code points of ASCII. -/
def asciiClasses (alphabet : Alphabet) (merge : Merge) : Array Nat :=
  ((List.range 128).map fun c => merge.classOf.getD (alphabet.classOf c) 0).toArray

/-- Puts a range in front of a list, joining it with the first one if they touch and share
their class. -/
def consRange (r : ClassRange) : List ClassRange → List ClassRange
  | [] => [r]
  | s :: rest =>
    if r.cls = s.cls && r.last + 1 = s.first then { s with first := r.first } :: rest
    else r :: s :: rest

/-- The classes of the code points beyond ASCII. -/
def classRanges (alphabet : Alphabet) (merge : Merge) : List ClassRange :=
  alphabet.intervals.foldr (fun (lo, hi, k) ranges =>
    if lo = endMark || hi < 128 then ranges
    else consRange ⟨max lo 128, hi, merge.classOf.getD k 0⟩ ranges) []

/-! ## 2. The description of an automaton -/

/-- The lines of a text, each ended by a line feed. -/
def linesText (lines : List String) : String := String.join (lines.map (· ++ "\n"))

/-- Describes an automaton and its table. -/
def describe (g : Grammar) (d : Dfa) (t : LexTable) : String :=
  let entries := t.backtracking.size
  let header := s!"# lexer: {t.states} states, {t.classes} classes, {entries} backtracking entries"
  let starts := g.states.toList.zipIdx.map fun (state, i) =>
    let start := t.stateMap.getD i 0
    s!"start {state.name} = {start}"
  let states := (List.range d.size).map fun s =>
    let names := ", ".intercalate ((d.acceptsOf s).map (ruleNameAt g))
    let cells := String.join ((List.range t.classes).map fun k => " " ++ (t.cell s k).text)
    s!"{s}: [{names}]" ++ cells
  let backtracking := t.backtracking.toList.zipIdx.map fun ((action, state), i) =>
    s!"backtrack {i}: action {action} then {state}"
  linesText (header :: starts ++ states ++ backtracking)

/-! ## 3. Tables -/

/-- The tables for a plan and its cells. -/
def tableOf (g : Grammar) (p : Plan) (cells : List (List Cell)) (instances : List InstanceGroup) :
    LexTable :=
  let entries := backtrackEntries cells
  let firstRule : Int := -2 - (entries.size : Int)
  let rows := (cells.map fun row => (row.map (Cell.encode entries firstRule)).toArray).toArray
  let merge := mergeClasses p.alphabet.count rows
  { classes := merge.representatives.length
    asciiClasses := asciiClasses p.alphabet merge
    classRanges := classRanges p.alphabet merge
    states := p.matcher.dfa.size
    transitions := (rows.toList.flatMap fun row =>
      merge.representatives.map fun k => row.getD k (-1)).toArray
    stateMap := p.matcher.dfa.starts.toArray
    backtracking := entries
    firstRule
    actionSymbol := (g.eoi :: g.lexicalRules.toList.map (·.symbol)).toArray
    actionRule := (none :: (List.range g.lexicalRules.size).map some).toArray
    instances }

/-- Builds the scanner tables of a grammar, with everything there is to say about its lexical
rules. -/
def build (g : Grammar) (options : LexOptions) : LexTable × List Diagnostic :=
  let (p, ruleFindings) := plan g options.maxRepeat
  let cells := p.matcher.cells
  let (taken, wordFindings) := takenWords g p
  let t := tableOf g p cells (instanceGroups taken)
  ({ t with debug := if options.debug then some (describe g p.matcher.dfa t) else none },
    ruleFindings ++ emptyMatchFindings g p ++ ambiguityFindings g p
      ++ unreachableFindings g p cells ++ wordFindings)

end GrammarTables.Lexical
