import GrammarTables.Lexical.Table
import GrammarTables.Scan.Position
import GrammarTables.Text.Quoted
/-
# Scanning

A scanner cuts a text into tokens.  The longest text that a rule accepts wins; where the automaton
gets stuck beyond an accepted text, the scanner falls back to the last text that was marked.  The
end of the input is a token of its own and comes exactly once.  Where nothing matches, one
character is skipped and reported, and scanning can go on.

The end of the input can be read like a character, but only once: afterwards nothing is left to
read, so a cell that would go on counts as the acceptance it carries, or as invalid.

The functions are `set_state`, `try_next`, `eoi_token` and `consume` of a scanner.
-/

namespace GrammarTables.Scan

open Lexical (LexTable Cell eoiClass)

/-! ## 1. Tokens, errors and events -/

/-- A piece of text with the symbol it stands for. -/
structure Token where
  symbol : Nat
  /-- The action that produced the token; 0 is the end of the input. -/
  action : Nat
  text : String
  span : Span
deriving DecidableEq

/-- Whether the token is the end of the input. -/
def Token.isEoi (t : Token) : Bool := t.action = 0

/-- Why no token was found. -/
inductive ScanError
  /-- No rule matches; the text was skipped. -/
  | invalidToken (text : String) (span : Span)
  | unknownState (state states : Nat)
  /-- The tables have no lexer state to begin in. -/
  | noStart
deriving DecidableEq

/-- The text of an error. -/
def ScanError.message : ScanError → String
  | .invalidToken text span => s!"invalid token `{text}' at " ++ span.text
  | .unknownState state states => s!"unknown lexer state {state} (the tables have {states})"
  | .noStart => "the tables have no lexer states"

/-- What happens while scanning. -/
inductive ScanEvent
  | started (lexerState state : Nat) (place : Position)
  | marked (bytes action state : Nat)
  | matched (action : Nat) (text : String) (span : Span)
  | skipped (c : Char) (span : Span)
  | ended (place : Position)
  | switched (old new : Nat)
deriving DecidableEq

/-- The text of an event. -/
def ScanEvent.text : ScanEvent → String
  | .started lexerState state place =>
    s!"START: lexer state={lexerState}, s={state}, at " ++ place.text
  | .marked bytes action state => s!"MARK: i={bytes}, action={action}, s={state}"
  | .matched action text span =>
    s!"MATCHED: action={action}, text=" ++ Text.quoted text ++ ", span=" ++ span.text
  | .skipped c span => "INVALID: " ++ Text.quotedChar c ++ " at " ++ span.text
  | .ended place => "EOI at " ++ place.text
  | .switched old new => s!"state {old} -> {new}"

/-! ## 2. Walking through the automaton -/

/-- A text that was found to be accepted on the way. -/
structure Mark where
  /-- The length of the text in characters. -/
  length : Nat
  /-- The length of the text in bytes. -/
  bytes : Nat
  action : Nat
  /-- The state in which the text is accepted. -/
  state : Nat
deriving DecidableEq

/-- How a walk ends. -/
inductive Ending
  /-- `action` accepts the first `length` characters; `atEnd` says whether the end of the input
  was read too. -/
  | accepted (action length : Nat) (atEnd : Bool)
  | stuck
deriving DecidableEq

/-- A walk through the automaton: the texts marked on the way, last first, and its end. -/
structure Walk where
  marks : List Mark
  ending : Ending
deriving DecidableEq

/-- The end of a walk that has read the end of the input and is in `state`. -/
def afterEnd (t : LexTable) (state length : Nat) : Ending :=
  match t.cell state eoiClass with
  | .accept action | .backtrack action _ => .accepted action length true
  | .goto _ | .invalid => .stuck

/-- Walks from a state, reached after `length` characters, over the rest of the text. -/
def walk (t : LexTable) (state length bytes : Nat) (marks : List Mark) : List Char → Walk
  | [] =>
    match t.cell state eoiClass with
    | .goto next => ⟨marks, afterEnd t next length⟩
    | .backtrack action next => ⟨⟨length, bytes, action, state⟩ :: marks, afterEnd t next length⟩
    | .accept action => ⟨marks, .accepted action length false⟩
    | .invalid => ⟨marks, .stuck⟩
  | c :: rest =>
    match t.cell state (t.classOf c.toNat) with
    | .goto next => walk t next (length + 1) (bytes + c.utf8Size) marks rest
    | .backtrack action next =>
      walk t next (length + 1) (bytes + c.utf8Size) (⟨length, bytes, action, state⟩ :: marks) rest
    | .accept action => ⟨marks, .accepted action length false⟩
    | .invalid => ⟨marks, .stuck⟩

/-- What a walk matched. -/
structure Match where
  action : Nat
  length : Nat
  /-- Whether the match includes the end of the input. -/
  atEnd : Bool
  /-- Whether the walk went on beyond the match. -/
  fellBack : Bool
deriving DecidableEq

/-- The match of a walk: where it stopped, or the last mark. -/
def Walk.match? (w : Walk) : Option Match :=
  match w.ending with
  | .accepted action length atEnd => some ⟨action, length, atEnd, false⟩
  | .stuck => w.marks.head?.map fun m => ⟨m.action, m.length, false, true⟩

/-! ## 3. The scanner -/

/-- What a scanner counts. -/
structure ScanStats where
  tokens : Nat := 0
  /-- Tokens that ended at a mark. -/
  backtracks : Nat := 0
  /-- Characters that were skipped. -/
  skipped : Nat := 0
deriving DecidableEq

/-- A scanner in the middle of a text. -/
structure Scanner where
  table : LexTable
  /-- The text that was not scanned yet. -/
  rest : List Char
  position : Position := .start
  /-- The lexer state. -/
  state : Nat := 0
  /-- Whether the last match included the end of the input. -/
  atEnd : Bool := false
  /-- Whether the end of the input was reported. -/
  done : Bool := false
  stats : ScanStats := {}

/-- The outcome of a call: a token, the end of the scan or an error, and what happened. -/
structure Scanned where
  result : Except ScanError (Option Token)
  scanner : Scanner
  events : List ScanEvent

namespace Scanner

/-- A scanner at the beginning of a text. -/
def new (table : LexTable) (text : String) : Scanner := { table, rest := text.toList }

/-- Changes the lexer state. -/
def setState (sc : Scanner) (state : Nat) : Except ScanError (Scanner × ScanEvent) :=
  if state < sc.table.stateMap.size then
    .ok ({ sc with state }, .switched sc.state state)
  else .error (.unknownState state sc.table.stateMap.size)

/-- Moves over the first `n` characters of the rest; their span comes with the scanner. -/
def consume (sc : Scanner) (n : Nat) : Span × Scanner :=
  let stop := sc.position.advanceAll (sc.rest.take n)
  (⟨sc.position, stop⟩, { sc with rest := sc.rest.drop n, position := stop })

/-- Reports the end of the input. -/
def finish (sc : Scanner) (events : List ScanEvent) : Scanned :=
  { result := .ok (some ⟨sc.table.symbolOf 0, 0, "", .point sc.position⟩)
    scanner := { sc with done := true, stats.tokens := sc.stats.tokens + 1 }
    events := events ++ [.ended sc.position] }

/-- Reports a match other than the end of the input.  A word that belongs to another rule becomes
a token of that rule. -/
def produce (sc : Scanner) (m : Match) (events : List ScanEvent) : Scanned :=
  let text := String.ofList (sc.rest.take m.length)
  let action := (sc.table.instance? m.action text).getD m.action
  let (span, sc) := sc.consume m.length
  { result := .ok (some ⟨sc.table.symbolOf action, action, text, span⟩)
    scanner := { sc with atEnd := m.atEnd, stats.tokens := sc.stats.tokens + 1 }
    events := events ++ [.matched action text span] }

/-- Skips a character that nothing matches. -/
def skip (sc : Scanner) (events : List ScanEvent) : Scanned :=
  match sc.rest with
  | [] =>
    { result := .error (.invalidToken "" (.point sc.position))
      scanner := { sc with done := true }
      events }
  | c :: _ =>
    let (span, sc) := sc.consume 1
    { result := .error (.invalidToken (String.singleton c) span)
      scanner := { sc with stats.skipped := sc.stats.skipped + 1 }
      events := events ++ [.skipped c span] }

/-- The next token.  After the end of the input there is none. -/
def next (sc : Scanner) : Scanned :=
  if sc.done then ⟨.ok none, sc, []⟩
  else if sc.atEnd then sc.finish []
  else match sc.table.stateMap[sc.state]? with
    | none => ⟨.error .noStart, sc, []⟩
    | some start =>
      let w := walk sc.table start 0 0 [] sc.rest
      let events := .started sc.state start sc.position ::
        w.marks.reverse.map fun m => .marked m.bytes m.action m.state
      match w.match? with
      | some m =>
        let sc := if m.fellBack
          then { sc with stats.backtracks := sc.stats.backtracks + 1 } else sc
        if m.action = 0 then sc.finish events else sc.produce m events
      | none => sc.skip events

end Scanner

end GrammarTables.Scan
