/-
# Scanner tables

The tables that a scanner runs on.  A cell of the transition table is one number: a state to go
to, the mark for an invalid character, an entry of the backtracking table, or an accepted action.
Action 0 is the end of the input, action `r + 1` is the lexical rule `r`.

The functions are `cell`, `class_of`, `instance` and `actions` of the tables.
-/

namespace GrammarTables.Lexical

/-- The class of the end of the input. -/
def eoiClass : Nat := 0

/-! ## 1. Cells -/

/-- What to do in a state before a character. -/
inductive Cell
  /-- Read the character and go to the state. -/
  | goto (state : Nat)
  /-- The same, remembering that `action` accepts the text before the character. -/
  | backtrack (action state : Nat)
  /-- Stop before the character; `action` accepts the text. -/
  | accept (action : Nat)
  | invalid
deriving DecidableEq

namespace Cell

/-- The text of a cell. -/
def text : Cell → String
  | .goto s => s!"{s}"
  | .backtrack action s => s!"{s}?{action}"
  | .accept action => s!"a{action}"
  | .invalid => "-"

/-- The action that a cell accepts, at once or to fall back to. -/
def action? : Cell → Option Nat
  | .backtrack action _ | .accept action => some action
  | .goto _ | .invalid => none

end Cell

/-! ## 2. Tables -/

/-- Code points that share a class. -/
structure ClassRange where
  first : Nat
  last : Nat
  cls : Nat
deriving DecidableEq

/-- Words that a class rule matches and that belong to other rules. -/
structure InstanceGroup where
  /-- The action of the class rule. -/
  classAction : Nat
  /-- The words, ascending, and their actions. -/
  entries : List (String × Nat)
deriving DecidableEq

/-- The tables of a scanner. -/
structure LexTable where
  /-- The number of classes of characters; class 0 is the end of the input. -/
  classes : Nat
  /-- The classes of the code points from 0 on, usually of those of ASCII. -/
  asciiClasses : Array Nat
  /-- The classes of the other code points, ascending. -/
  classRanges : List ClassRange
  states : Nat
  /-- The cells, row by row. -/
  transitions : Array Int
  /-- The start of each lexer state. -/
  stateMap : Array Nat
  /-- Actions to fall back to, and states to go to. -/
  backtracking : Array (Nat × Nat)
  /-- The number of the cell that accepts action 0. -/
  firstRule : Int
  /-- The symbol that each action produces. -/
  actionSymbol : Array Nat
  /-- The lexical rule of each action. -/
  actionRule : Array (Option Nat) := #[]
  instances : List InstanceGroup := []
  /-- A description of the automaton. -/
  debug : Option String := none
deriving DecidableEq

namespace LexTable

/-- The class of a code point.  Those outside all ranges have the class of the last range. -/
def classOf (t : LexTable) (c : Nat) : Nat :=
  match t.asciiClasses[c]? with
  | some k => k
  | none =>
    match t.classRanges.findRev? (fun r => r.first ≤ c) with
    | some r => if c ≤ r.last then r.cls else t.classRanges.getLast?.elim 1 (·.cls)
    | none => t.classRanges.getLast?.elim 1 (·.cls)

/-- Decodes the number of a cell. -/
def decode (t : LexTable) (v : Int) : Cell :=
  if 0 ≤ v then .goto v.toNat
  else if v = -1 then .invalid
  else if t.firstRule < v then
    match t.backtracking[(-2 - v).toNat]? with
    | some (action, state) => .backtrack action state
    | none => .invalid
  else .accept (t.firstRule - v).toNat

/-- The cell of a state and a class. -/
def cell (t : LexTable) (state cls : Nat) : Cell :=
  match t.transitions[state * t.classes + cls]? with
  | some v => t.decode v
  | none => .invalid

/-- The action of the word `text` among those that the class rule of `action` matches. -/
def instance? (t : LexTable) (action : Nat) (text : String) : Option Nat :=
  (t.instances.find? fun g => g.classAction = action).bind fun g =>
    (g.entries.find? fun e => e.1 = text).map (·.2)

/-- The number of actions. -/
def actions (t : LexTable) : Nat := t.actionSymbol.size

/-- The symbol that an action produces. -/
def symbolOf (t : LexTable) (action : Nat) : Nat := t.actionSymbol.getD action 0

end LexTable

end GrammarTables.Lexical
