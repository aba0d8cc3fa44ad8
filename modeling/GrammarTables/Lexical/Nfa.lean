import GrammarTables.Lexical.Expr
/-
# Nondeterministic automata

An automaton is a number of states and two lists of moves: those that read nothing and those
that read a code point of a set.  Building an expression only ever adds states and moves, so
what was built before keeps its meaning.

Each expression becomes a fragment with one entry and one exit.

The functions are `add_state`, `add_eps`, `add_edge`, `single_edge`, `compile_seq`, and of `compile`
and `compile_repeat` what builds the automaton.
-/

namespace GrammarTables.Lexical

/-- An automaton with states `0 .. size - 1`. -/
structure Nfa where
  size : Nat := 0
  /-- Moves that read nothing. -/
  silent : List (Nat × Nat) := []
  /-- Moves that read a code point of a set. -/
  reading : List (Nat × CharSet × Nat) := []

/-- A part of an automaton with one entry and one exit. -/
structure Fragment where
  start : Nat
  stop : Nat
deriving DecidableEq

namespace Nfa

/-- Adds a state. -/
def addState (a : Nfa) : Nat × Nfa := (a.size, { a with size := a.size + 1 })

/-- Adds a move that reads nothing. -/
def addSilent (a : Nfa) (s t : Nat) : Nfa := { a with silent := (s, t) :: a.silent }

/-- Adds a move that reads a code point of a set. -/
def addReading (a : Nfa) (s : Nat) (set : CharSet) (t : Nat) : Nfa :=
  { a with reading := (s, set, t) :: a.reading }

/-- Appends `n` copies of what `build` builds after the state `cur`, calling `after` with the exit
of each copy.  The result is the exit of the last copy. -/
def chain (build : Nfa → Fragment × Nfa) (after : Nfa → Nat → Nfa) : Nat → Nat → Nfa → Nat × Nfa
  | 0, cur, a => (cur, a)
  | n + 1, cur, a =>
    let (f, a) := build a
    chain build after n f.stop (after (a.addSilent cur f.start) f.stop)

/-- At least `min` copies of what `build` builds, and at most `max` if that is given.  Without a
bound the copies beyond `min` are a loop through one state; with a bound each of them may be
left for the exit. -/
def addRepeated (build : Nfa → Fragment × Nfa) (min : Nat) (max : Option Nat) (a : Nfa) :
    Fragment × Nfa :=
  let (start, a) := a.addState
  let (cur, a) := chain build (fun a _ => a) min start a
  match max with
  | none =>
    let (f, a) := build a
    let (hub, a) := a.addState
    (⟨start, hub⟩, ((a.addSilent cur hub).addSilent hub f.start).addSilent f.stop hub)
  | some max =>
    let (stop, a) := a.addState
    let a := a.addSilent cur stop
    let (_, a) := chain build (fun a s => a.addSilent s stop) (max - min) cur a
    (⟨start, stop⟩, a)

end Nfa

mutual

/-- Adds a fragment for an expression. -/
def Expr.build : Expr → Nfa → Fragment × Nfa
  | .chars set, a =>
    let (s, a) := a.addState
    let (t, a) := a.addState
    (⟨s, t⟩, a.addReading s set t)
  | .seq items, a =>
    let (start, a) := a.addState
    let (stop, a) := buildSeq items start a
    (⟨start, stop⟩, a)
  | .alt items, a =>
    let (start, a) := a.addState
    let (stop, a) := a.addState
    (⟨start, stop⟩, buildAlt items start stop a)
  | .repeated inner min max, a => a.addRepeated inner.build min max

/-- Adds fragments for expressions one after the other, beginning at the state `cur`.  The result
is the exit of the last one. -/
def buildSeq : List Expr → Nat → Nfa → Nat × Nfa
  | [], cur, a => (cur, a)
  | e :: es, cur, a =>
    let (f, a) := e.build a
    buildSeq es f.stop (a.addSilent cur f.start)

/-- Adds fragments for expressions side by side, between the states `start` and `stop`. -/
def buildAlt : List Expr → Nat → Nat → Nfa → Nfa
  | [], _, _, a => a
  | e :: es, start, stop, a =>
    let (f, a) := e.build a
    buildAlt es start stop ((a.addSilent start f.start).addSilent f.stop stop)

end

/-! ## The automaton of a list of rules -/

/-- A lexical rule whose fragment is part of an automaton. -/
structure CompiledRule where
  fragment : Fragment
  lookahead : Option CharSet

/-- Adds a fragment for a rule. -/
def RuleExpr.build (r : RuleExpr) (a : Nfa) : CompiledRule × Nfa :=
  let (fragment, a) := (Expr.seq r.body).build a
  (⟨fragment, r.lookahead⟩, a)

/-- Adds fragments for all rules that have a meaning. -/
def buildRules : List (Option RuleExpr) → Nfa → List (Option CompiledRule) × Nfa
  | [], a => ([], a)
  | none :: rest, a =>
    let (cs, a) := buildRules rest a
    (none :: cs, a)
  | some r :: rest, a =>
    let (c, a) := r.build a
    let (cs, a) := buildRules rest a
    (some c :: cs, a)

/-- Adds a state with silent moves to each of the targets. -/
def addEntry (targets : List Nat) (a : Nfa) : Nat × Nfa :=
  let (s, a) := a.addState
  (s, targets.foldl (fun a t => a.addSilent s t) a)

/-- Adds one entry for each list of targets. -/
def addEntries : List (List Nat) → Nfa → List Nat × Nfa
  | [], a => ([], a)
  | targets :: rest, a =>
    let (s, a) := addEntry targets a
    let (ss, a) := addEntries rest a
    (s :: ss, a)

end GrammarTables.Lexical
