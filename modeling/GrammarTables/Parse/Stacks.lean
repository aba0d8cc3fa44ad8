import GrammarTables.Parse.Machine
/-
# Parsing with two stacks

The LR machine as it is laid out in memory: the states and the trees are kept in two lists, which
grow and shrink at different places of a step, and every table is read at a computed place.  Here a
list or a table that has nothing at a place is a fault, and so is a token that was looked at and is
not there (`peek`, `parse` and `reduce` of the parser).
-/

namespace GrammarTables.Parse

open Scan (Token)

/-! ## 1. Faults -/

/-- Why a parse with two stacks fails. -/
inductive Fault
  | error (e : ParseError)
  | noLookahead
  /-- A list or a table was read at a place that it does not have. -/
  | outOfRange
deriving DecidableEq

/-- The text of a fault. -/
def Fault.message : Fault → String
  | .error e => e.message
  | .noLookahead => "no lookahead"
  | .outOfRange => "index out of bounds"

/-- What was read from a list or a table. -/
def entry {α : Type} : Option α → Except Fault α
  | some a => .ok a
  | none => .error .outOfRange

/-- Fails unless something holds. -/
def require (p : Prop) [Decidable p] (e : Fault) : Except Fault Unit :=
  if p then .ok () else .error e

theorem entry_some {α : Type} (a : α) : entry (some a) = .ok a := rfl

theorem require_pos {p : Prop} [Decidable p] (h : p) (e : Fault) : require p e = .ok () := if_pos h

theorem require_neg {p : Prop} [Decidable p] (h : ¬ p) (e : Fault) : require p e = .error e :=
  if_neg h

/-! ## 2. Steps -/

/-- The machine between two steps. -/
structure Stacks where
  session : Session
  /-- The states, the current one last. -/
  states : List Nat
  /-- The trees, the last one last. -/
  trees : List Tree

/-- The outcome of a step. -/
inductive StackResult
  | next (m : Stacks)
  | accepted (tree : Tree) (s : Session)
  | failed (e : Fault) (s : Session)

/-- Makes sure that there is a next token, and looks at it. -/
def Session.look (s : Session) : Except Fault Token × Session :=
  let filled : Except ParseError Unit × Session :=
    match s.lookahead with
    | some _ => (.ok (), s)
    | none =>
      match s.read (s.scanner.rest.length + 3) with
      | (.error e, s) => (.error e, s)
      | (.ok token, s) => (.ok (), { s with lookahead := some token })
  match filled with
  | (.error e, s) => (.error (.error e), s)
  | (.ok (), s) =>
    match s.lookahead with
    | some token => (.ok token, s)
    | none => (.error .noLookahead, s)

namespace Stacks

/-- The trees with the states that they lead to, the last one first. -/
def frames (m : Stacks) : List Frame :=
  (m.trees.zipWith (fun tree state => ⟨tree, state⟩) (m.states.drop 1)).reverse

/-- Replaces the right side of a rule on the stacks by its left side. -/
def reduce (m : Stacks) (rule : Nat) : Except Fault Stacks := do
  let t := m.session.table
  let length ← entry t.ruleLength[rule]?
  require (length ≤ m.trees.length) (.error (.underflow rule))
  let children := m.trees.drop (m.trees.length - length)
  let trees := m.trees.take (m.trees.length - length)
  require (length ≤ m.states.length) .outOfRange
  let states := m.states.take (m.states.length - length)
  let left ← entry t.ruleLeft[rule]?
  let top ← entry states.getLast?
  require (t.terminals ≤ top * t.nonterminals + left) .outOfRange
  match ← entry t.gotos[top * t.nonterminals + left - t.terminals]? with
  | none => .error (.error (.noGoto top left))
  | some next => .ok {
      session := { m.session with stats.reductions := m.session.stats.reductions + 1 }
      states := states ++ [next]
      trees := trees ++ [.branch rule left (spanOf children m.session.lookahead) children] }

/-- Takes the token that was looked at. -/
def shift (m : Stacks) (state : Nat) : StackResult :=
  let s := m.session.log (.shift state)
  match s.lookahead with
  | none => .failed .noLookahead s
  | some token => .next {
      session := { s with lookahead := none, stats.shifts := s.stats.shifts + 1 }
      states := m.states ++ [state]
      trees := m.trees ++ [.leaf token] }

/-- Accepts the input.  The end of the input is taken, any other token is kept. -/
def accept (m : Stacks) : StackResult :=
  let s := m.session.log .accept
  let s := if s.lookahead.any (·.isEoi) then { s with lookahead := none } else s
  match m.trees.getLast? with
  | none => .failed (.error .emptyStack) s
  | some root =>
    let rest := m.trees.dropLast
    if rest.isEmpty then .accepted root s else .failed (.error (.leftOver rest.length)) s

/-- Fails at the token that was looked at, which is dropped. -/
def reject (m : Stacks) : StackResult :=
  match m.session.lookahead with
  | none => .failed .noLookahead m.session
  | some token => .failed (.error (if token.isEoi then .unexpectedEnd token.span.start
      else .unexpected token.text token.span)) { m.session with lookahead := none }

/-- What a reduction leads to. -/
def reduced (m : Stacks) : Except Fault Stacks → StackResult
  | .ok m' => .next m'
  | .error e => .failed e m.session

/-- Reduces by a rule whatever follows. -/
def reduceByDefault (m : Stacks) (rule : Nat) : StackResult :=
  let m := { m with session := m.session.log (.reduceByDefault rule) }
  m.reduced ((m.reduce rule).map fun m => { m with
    session.stats.defaultReductions := m.session.stats.defaultReductions + 1 })

/-- Acts on the token that was looked at. -/
def act (m : Stacks) : Lr.Action → StackResult
  | .shift next => m.shift next
  | .reduce rule =>
    let m := { m with session := m.session.log (.reduce rule) }
    m.reduced (m.reduce rule)
  | .accept => m.accept
  | .error => m.reject

/-- What the machine does in a state. -/
def proceed (m : Stacks) (state : Nat) : StackResult :=
  match m.session.table.defaultReduce[state]? with
  | none => .failed .outOfRange m.session
  | some (some rule) => m.reduceByDefault rule
  | some none =>
    match m.session.look with
    | (.error e, s) => .failed e s
    | (.ok token, s) =>
      match s.table.actions[state * s.table.terminals + token.symbol]? with
      | none => .failed .outOfRange s
      | some action => { m with session := s }.act action

/-- One step of the machine. -/
def step (m : Stacks) : StackResult :=
  let m := { m with session := m.session.log (.stack (m.states.headD 0) m.frames) }
  match m.states.getLast? with
  | none => .failed .outOfRange m.session
  | some state => m.proceed state

/-- Runs the machine for at most `limit` steps. -/
def run : Nat → Stacks → Except Fault Tree × Session
  | 0, m => (.error (.error .stopped), m.session)
  | limit + 1, m =>
    match m.step with
    | .next m => run limit m
    | .accepted tree s => (.ok tree, s)
    | .failed e s => (.error e, s)

/-- The configurations of a run. -/
def trace : Nat → Stacks → List Stacks
  | 0, _ => []
  | limit + 1, m => m :: match m.step with
    | .next m' => trace limit m'
    | .accepted _ _ | .failed _ _ => []

end Stacks

/-- Parses one instance of an input with two stacks, in at most `limit` steps. -/
def Session.parseStacks (s : Session) (input limit : Nat) : Except Fault Tree × Session :=
  match s.table.startStates[input]? with
  | some start => Stacks.run limit ⟨s, [start], []⟩
  | none => (.error (.error (.unknownInput input)), s)

/-- The configurations of a parse with two stacks. -/
def Session.traceStacks (s : Session) (input limit : Nat) : List Stacks :=
  match s.table.startStates[input]? with
  | some start => Stacks.trace limit ⟨s, [start], []⟩
  | none => []

end GrammarTables.Parse
