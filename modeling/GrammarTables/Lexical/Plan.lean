import GrammarTables.Lexical.Alphabet
import GrammarTables.Lexical.Cells
import GrammarTables.Lexical.Nfa
import GrammarTables.Lexical.Resolve
/-
# The automaton of a grammar

What becomes of each lexical rule of a grammar, and the automaton that matches the rules that
are used.  A rule that cannot be used is reported and left out; nothing of it reaches the
automaton.

This is the first half of `build`: from the rules to the automaton.
-/

namespace GrammarTables.Lexical

/-! ## 1. Roles of rules -/

/-- What becomes of a lexical rule. -/
inductive Role
  /-- It is left out. -/
  | dropped
  /-- It takes a word from the class rule it refines. -/
  | word (text : List Char)
  /-- It is matched by the automaton. -/
  | matched (expr : RuleExpr)

/-- The meaning of a rule that the automaton matches. -/
def Role.expr? : Role → Option RuleExpr
  | .matched e => some e
  | .dropped | .word _ => none

/-- The name of a lexical rule is that of its symbol. -/
def ruleName (g : Grammar) (r : LexicalRule) : String := g.symbolName r.symbol

/-- The name of the lexical rule of an index. -/
def ruleNameAt (g : Grammar) (i : Nat) : String :=
  match g.lexicalRules[i]? with
  | some r => ruleName g r
  | none => ""

/-- Where the lexical rule of an index was declared. -/
def ruleOriginAt (g : Grammar) (i : Nat) : Option Anchor := g.lexicalRules[i]?.bind (·.origin)

/-- The patterns of a grammar.  Those with mistakes and those that refer to themselves cannot be
used; the latter are reported. -/
def patternTable (g : Grammar) : PatternTable × List Diagnostic :=
  let patterns := g.patterns.toList
  let cyclic := (cyclicPatterns patterns).filterMap fun i => patterns[i]?
  ({ patterns
     unusable := (patterns.filter fun p => !p.regex.isValid).map (·.name) ++ cyclic.map (·.name) },
    cyclic.map fun p => .error .structural s!"pattern `{p.name}' references itself" [p.origin])

/-- What becomes of a lexical rule, and what there is to say about it. -/
def roleOf (g : Grammar) (table : PatternTable) (limit : Nat) (r : LexicalRule) :
    Role × List Diagnostic :=
  let name := ruleName g r
  let reject (message : String) : Role × List Diagnostic :=
    (.dropped, [.error .structural message [r.origin]])
  if !r.regex.isValid then (.dropped, [])
  else if r.kind = .soft && r.classRule.isNone then
    reject s!"soft lexical rule `{name}' must refine a class rule"
  else match r.classRule with
    | some c =>
      match r.regex.constant? with
      | some text => (.word text, [])
      | none =>
        let className := ruleNameAt g c
        reject s!"`{name}' refines class rule `{className}' but does not match a constant text"
    | none =>
      match resolveRule table limit r.regex with
      | .ok e => (.matched e, [])
      | .error e =>
        (.dropped, [.error .structural (s!"lexical rule `{name}': " ++ e.cause.message)
          [r.origin.map (·.narrow r.regex.text e.range.start e.range.stop)]])

/-! ## 2. The automaton -/

/-- Which of two rules wins on the same text: the one of higher priority, or the one declared
first. -/
def ranksBefore (rules : Array LexicalRule) (r s : Nat) : Bool :=
  let priority (i : Nat) : Int := match rules[i]? with
    | some rule => rule.priority
    | none => 0
  priority s < priority r || (priority r = priority s && r < s)

/-- The automaton over classes, for an automaton over sets. -/
def classNfa (a : Nfa) (alphabet : Alphabet) (compiled : List (Option CompiledRule)) : ClassNfa :=
  let (ids, sets) := internAll #[] (a.reading.map fun (_, set, _) => set)
  let classes := sets.map alphabet.classesOf
  { silent := a.silent.foldl (fun adj (s, t) => adj.modify s (t :: ·)) (Array.replicate a.size [])
    moves := (a.reading.zip ids).foldl (fun adj ((s, _, t), id) =>
      adj.modify s (((classes.getD id []).map (·, t)) ++ ·)) (Array.replicate a.size [])
    accept := compiled.zipIdx.foldl (fun acc (c, r) => match c with
      | some c => acc.setIfInBounds c.fragment.stop (some r)
      | none => acc) (Array.replicate a.size none) }

/-- The classes that must not follow a rule. -/
def excludedRow (alphabet : Alphabet) (c : Option CompiledRule) : Array Bool :=
  match c.bind (·.lookahead) with
  | some set => (alphabet.classesOf set).foldl (fun row k => row.setIfInBounds k true)
      (Array.replicate alphabet.count false)
  | none => #[]

/-- How the lexical rules of a grammar are matched. -/
structure Plan where
  roles : List Role
  compiled : Array (Option CompiledRule)
  alphabet : Alphabet
  /-- The automaton as constructed, in which a start may accept the empty text. -/
  full : Dfa
  /-- The automaton that ignores empty matches. -/
  matcher : Matcher

/-- The plan for rules whose roles are known. -/
def planFor (g : Grammar) (roles : List Role) : Plan :=
  let (compiled, a) := buildRules (roles.map Role.expr?) {}
  let (starts, a) := addEntries ((List.range g.states.size).map fun state =>
    (g.lexicalRules.toList.zip compiled).filterMap fun (r, c) =>
      c.bind fun c => if r.states.contains state then some c.fragment.start else none) a
  let sets := (internAll #[] (a.reading.map fun (_, set, _) => set)).2.toList
  let alphabet := Alphabet.of (sets ++ compiled.filterMap fun c => c.bind (·.lookahead))
  let full := Dfa.ofNfa (classNfa a alphabet compiled) starts alphabet.count
    (ranksBefore g.lexicalRules)
  { roles
    compiled := compiled.toArray
    alphabet
    full
    matcher :=
      { dfa := full.withoutEmptyMatches
        classes := alphabet.count
        excluded := (compiled.map (excludedRow alphabet)).toArray } }

/-- The plan for a grammar, with what there is to say about patterns and single rules. -/
def plan (g : Grammar) (limit : Nat) : Plan × List Diagnostic :=
  let (table, patternFindings) := patternTable g
  let results := g.lexicalRules.toList.map (roleOf g table limit)
  (planFor g (results.map (·.1)), patternFindings ++ results.flatMap (·.2))

end GrammarTables.Lexical
