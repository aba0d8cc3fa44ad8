import GrammarTables.Lr.Table
import GrammarTables.Parse.Tree
/-
# Parsing

The LR machine: a stack of trees with the states they lead to, and a scanner that supplies
tokens.  A step reduces by the default rule of the state, if there is one; otherwise it looks at
the next token and shifts, reduces, accepts or fails.

A `Session` lasts over several parses of one text: a token that was looked at and not taken when
an input was accepted is kept for the next parse.

The functions are `peek`, `parse` and `reduce` of a parser.  A state and the tree above it are one
frame here; `Parse.Stacks` keeps them apart.
-/

namespace GrammarTables.Parse

open Scan (Token Scanner ScanError ScanEvent)
open Lr (ParseTable)

/-! ## 1. Errors and events -/

/-- Why a parse fails. -/
inductive ParseError
  | scan (e : ScanError)
  | unknownInput (input : Nat)
  | endOfStream
  | underflow (rule : Nat)
  | noGoto (state symbol : Nat)
  | emptyStack
  | leftOver (count : Nat)
  | unexpectedEnd (place : Position)
  | unexpected (text : String) (span : Span)
  /-- The machine was stopped after the number of steps it was allowed. -/
  | stopped
deriving DecidableEq

/-- The text of an error. -/
def ParseError.message : ParseError → String
  | .scan e => e.message
  | .unknownInput input => s!"unknown input {input}"
  | .endOfStream => "unexpected end of stream"
  | .underflow rule => s!"stack underflow reducing rule {rule}"
  | .noGoto state symbol => s!"no goto from state {state} on symbol {symbol}"
  | .emptyStack => "stack underflow"
  | .leftOver count => s!"{count} symbols left on the stack"
  | .unexpectedEnd place => "unexpected end of input at " ++ place.text
  | .unexpected text span => s!"unexpected `{text}' at " ++ span.text
  | .stopped => "too many steps"

/-- A tree on the stack and the state it leads to. -/
structure Frame where
  tree : Tree
  state : Nat

/-- What happens while parsing. -/
inductive ParseEvent
  | scanning (e : ScanEvent)
  /-- A step begins with this stack, the top first, above the state `start`. -/
  | stack (start : Nat) (frames : List Frame)
  | layout (text : String)
  | shift (state : Nat)
  | reduce (rule : Nat)
  | reduceByDefault (rule : Nat)
  | accept

/-- The text of an event. -/
def ParseEvent.text : ParseEvent → String
  | .scanning e => e.text
  | .stack start frames =>
    s!"<{start}>" ++ String.join (frames.reverse.map fun f =>
      let symbol := f.tree.symbol
      s!" {symbol} <{f.state}>")
  | .layout text => "Layout " ++ Text.quoted text
  | .shift state => s!"Shift {state}"
  | .reduce rule => s!"Reduce {rule}"
  | .reduceByDefault rule => s!"Reduce {rule} (default)"
  | .accept => "Accept"

/-! ## 2. Sessions -/

/-- What a session counts. -/
structure ParseStats where
  tokens : Nat := 0
  shifts : Nat := 0
  reductions : Nat := 0
  /-- Reductions that did not look at the next token. -/
  defaultReductions : Nat := 0
  /-- Tokens that parsing never sees. -/
  layout : Nat := 0
deriving DecidableEq

/-- A parser and its scanner between two steps. -/
structure Session where
  table : ParseTable
  scanner : Scanner
  /-- The token that was looked at and not taken. -/
  lookahead : Option Token := none
  stats : ParseStats := {}
  /-- What happened, last first. -/
  events : List ParseEvent := []

namespace Session

/-- A session at the beginning of a text. -/
def new (table : ParseTable) (scanner : Scanner) : Session := { table, scanner }

/-- Notes an event. -/
def log (s : Session) (e : ParseEvent) : Session := { s with events := e :: s.events }

/-- Asks the scanner for a token. -/
def scan (s : Session) : Except ScanError (Option Token) × Session :=
  let r := s.scanner.next
  (r.result,
    { s with scanner := r.scanner, events := (r.events.map .scanning).reverse ++ s.events })

/-- The next token that is a terminal of the tables, after at most `n` tokens that are not. -/
def read : Nat → Session → Except ParseError Token × Session
  | 0, s => (.error .endOfStream, s)
  | n + 1, s =>
    match s.scan with
    | (.error e, s) => (.error (.scan e), s)
    | (.ok none, s) => (.error .endOfStream, s)
    | (.ok (some token), s) =>
      let s := { s with stats.tokens := s.stats.tokens + 1 }
      if token.symbol < s.table.terminals then (.ok token, s)
      else read n ({ s with stats.layout := s.stats.layout + 1 }.log (.layout token.text))

/-- Looks at the next token.  A scanner yields no more tokens than there are characters left,
one match of the end of the input, and the end of the input. -/
def peek (s : Session) : Except ParseError Token × Session :=
  match s.lookahead with
  | some token => (.ok token, s)
  | none =>
    match s.read (s.scanner.rest.length + 3) with
    | (.ok token, s) => (.ok token, { s with lookahead := some token })
    | (.error e, s) => (.error e, s)

end Session

/-! ## 3. Steps -/

/-- The machine between two steps. -/
structure Config where
  session : Session
  /-- The state below the stack. -/
  start : Nat
  /-- The stack, the top first. -/
  stack : List Frame

/-- The state above some frames. -/
def stateAbove (start : Nat) (frames : List Frame) : Nat :=
  match frames with
  | [] => start
  | f :: _ => f.state

/-- The span of the trees of a right side.  Without trees it is empty, at the token that was
looked at, or at the beginning of the text if there is none. -/
def spanOf (children : List Tree) (lookahead : Option Token) : Span :=
  match children.head?, children.getLast? with
  | some first, some last => first.span.merge last.span
  | _, _ => .point (match lookahead with
    | some token => token.span.start
    | none => .start)

namespace Config

/-- The current state. -/
def state (c : Config) : Nat := stateAbove c.start c.stack

/-- Replaces the right side of a rule on the stack by its left side. -/
def reduce (c : Config) (rule : Nat) : Except ParseError Config :=
  let t := c.session.table
  let n := t.ruleLength.getD rule 0
  if c.stack.length < n then .error (.underflow rule)
  else
    let children := (c.stack.take n).reverse.map (·.tree)
    let rest := c.stack.drop n
    let below := stateAbove c.start rest
    let left := t.ruleLeft.getD rule 0
    match t.goto below left with
    | none => .error (.noGoto below left)
    | some next =>
      let tree := .branch rule left (spanOf children c.session.lookahead) children
      .ok { c with
        session.stats.reductions := c.session.stats.reductions + 1
        stack := ⟨tree, next⟩ :: rest }

end Config

/-- The outcome of a step. -/
inductive StepResult
  | next (c : Config)
  | accepted (tree : Tree) (s : Session)
  | failed (e : ParseError) (s : Session)

namespace Config

/-- Takes the token that was looked at. -/
def shift (c : Config) (token : Token) (state : Nat) : Config :=
  { c with
    session := { c.session.log (.shift state) with
      lookahead := none, stats.shifts := c.session.stats.shifts + 1 }
    stack := ⟨.leaf token, state⟩ :: c.stack }

/-- Accepts the input.  The end of the input is taken, any other token is kept. -/
def accept (c : Config) (token : Token) : StepResult :=
  let s := c.session.log .accept
  let s := if token.isEoi then { s with lookahead := none } else s
  match c.stack with
  | [] => .failed .emptyStack s
  | [f] => .accepted f.tree s
  | _ :: rest => .failed (.leftOver rest.length) s

/-- Fails at a token, which is dropped. -/
def reject (c : Config) (token : Token) : StepResult :=
  .failed (if token.isEoi then .unexpectedEnd token.span.start
    else .unexpected token.text token.span) { c.session with lookahead := none }

/-- One step of the machine. -/
def step (c : Config) : StepResult :=
  let c := { c with session := c.session.log (.stack c.start c.stack) }
  match c.session.table.defaultReduce.getD c.state none with
  | some rule =>
    let c := { c with session := c.session.log (.reduceByDefault rule) }
    match c.reduce rule with
    | .ok c => .next { c with
        session.stats.defaultReductions := c.session.stats.defaultReductions + 1 }
    | .error e => .failed e c.session
  | none =>
    match c.session.peek with
    | (.error e, s) => .failed e s
    | (.ok token, s) =>
      let c := { c with session := s }
      match s.table.action c.state token.symbol with
      | .shift state => .next (c.shift token state)
      | .reduce rule =>
        let c := { c with session := c.session.log (.reduce rule) }
        match c.reduce rule with
        | .ok c => .next c
        | .error e => .failed e c.session
      | .accept => c.accept token
      | .error => c.reject token

/-- Runs the machine for at most `limit` steps. -/
def run : Nat → Config → Except ParseError Tree × Session
  | 0, c => (.error .stopped, c.session)
  | limit + 1, c =>
    match c.step with
    | .next c => run limit c
    | .accepted tree s => (.ok tree, s)
    | .failed e s => (.error e, s)

end Config

/-- Parses one instance of an input, in at most `limit` steps. -/
def Session.parse (s : Session) (input : Nat) (limit : Nat) : Except ParseError Tree × Session :=
  match s.table.startStates[input]? with
  | some start => Config.run limit ⟨s, start, []⟩
  | none => (.error (.unknownInput input), s)

end GrammarTables.Parse
