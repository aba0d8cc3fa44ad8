import GrammarTables.Lexical.Plan
/-
# What there is to say about the lexical rules of a grammar

Findings that take the whole automaton: rules that match the empty text, rules that accept the
same text with equal priority, rules that never win, and words that their class rule does not
match.

The functions are `report_conflicts` and `instances`, and of `build` the findings about empty
matches.
-/

namespace GrammarTables.Lexical

/-! ## 1. Empty matches -/

/-- The rules that accept the empty text in some lexer state, in the order of discovery. -/
def emptyMatches (p : Plan) : List Nat := (p.full.starts.flatMap p.full.acceptsOf).eraseDups

/-- A warning for each rule that accepts the empty text. -/
def emptyMatchFindings (g : Grammar) (p : Plan) : List Diagnostic :=
  (emptyMatches p).map fun r =>
    let name := ruleNameAt g r
    .warning .emptyMatch s!"lexical rule `{name}' accepts empty text, the empty match is ignored"
      [ruleOriginAt g r]

/-! ## 2. Competing rules -/

/-- The pairs of a winning rule and another rule that some state accepts, in the order of
states. -/
def shadowings (d : Dfa) : List (Nat × Nat) :=
  d.accepts.toList.flatMap fun
    | best :: rest => rest.map (best, ·)
    | [] => []

/-- Order of pairs by the first, then by the second number. -/
def pairBefore (p q : Nat × Nat) : Bool := p.1 < q.1 || (p.1 = q.1 && p.2 < q.2)

/-- The pairs of a winning rule and another rule of equal priority that accept the same text. -/
def ambiguities (g : Grammar) (d : Dfa) : List (Nat × Nat) :=
  let priority (i : Nat) : Option Int := g.lexicalRules[i]?.map (·.priority)
  sortBy pairBefore ((shadowings d).filter fun (a, b) => priority a = priority b)

/-- A warning for each pair of rules that accept the same text with equal priority. -/
def ambiguityFindings (g : Grammar) (p : Plan) : List Diagnostic :=
  (ambiguities g p.matcher.dfa).map fun (a, b) =>
    let first := ruleNameAt g a
    let second := ruleNameAt g b
    .warning .lexicalAmbiguity
      s!"`{first}' and `{second}' accept the same text with equal priority, `{first}' wins"
      [ruleOriginAt g a, ruleOriginAt g b]

/-- The rules that some cell accepts. -/
def winners (cells : List (List Cell)) : List Nat :=
  (cells.flatten.filterMap Cell.action?).eraseDups.filterMap fun action =>
    if action = 0 then none else some (action - 1)

/-- A warning for each rule of the automaton that no cell accepts. -/
def unreachableFindings (g : Grammar) (p : Plan) (cells : List (List Cell)) : List Diagnostic :=
  let won := winners cells
  let pairs := shadowings p.matcher.dfa
  (List.range p.compiled.size).filterMap fun r =>
    if (p.compiled.getD r none).isNone || won.contains r then none
    else
      let name := ruleNameAt g r
      let message := match pairs.find? fun (_, other) => other = r with
        | some (by_, _) =>
          let winner := ruleNameAt g by_
          s!"lexical rule `{name}' is never matched, `{winner}' always wins"
        | none => s!"lexical rule `{name}' is never matched"
      some (.warning .unreachableRule message [ruleOriginAt g r])

/-! ## 3. Words of class rules -/

/-- Whether, in each of some lexer states, the best rule that accepts a text is `rule`. -/
def matchedBy (p : Plan) (rule : Nat) (states : List Nat) (text : List Char) : Bool :=
  let d := p.matcher.dfa
  states.all fun state =>
    match d.starts[state]?.bind fun s => d.run s (text.map fun c => p.alphabet.classOf c.toNat) with
    | some s => (d.acceptsOf s).head? = some rule
    | none => false

/-- A word that a rule takes from the class rule it refines. -/
structure TakenWord where
  classRule : Nat
  text : String
  /-- The rule that the word belongs to. -/
  owner : Nat
deriving DecidableEq

/-- The rule that has taken a word from a class rule. -/
def ownerOf? (taken : List TakenWord) (classRule : Nat) (text : String) : Option Nat :=
  (taken.find? fun w => w.classRule = classRule && w.text = text).map (·.owner)

/-- Checks the word that rule `r` asks for, and adds it to the words taken so far if the class
rule matches it and no earlier rule has it. -/
def takeWord (g : Grammar) (p : Plan) (taken : List TakenWord) (r : Nat) (rule : LexicalRule)
    (word : List Char) : List TakenWord × List Diagnostic :=
  match rule.classRule with
  | none => (taken, [])
  | some c =>
    let name := ruleName g rule
    let className := ruleNameAt g c
    let text := String.ofList word
    if (p.compiled.getD c none).isNone then
      (taken, [.error .structural s!"`{name}' refines class rule `{className}', which was dropped"
        [rule.origin]])
    else if !matchedBy p c rule.states word then
      (taken, [.error .structural s!"`{text}' is not matched by class rule `{className}'"
        [rule.origin]])
    else match ownerOf? taken c text with
      | some first =>
        let winner := ruleNameAt g first
        (taken, [.warning .lexicalAmbiguity
          s!"`{text}' is declared as both `{winner}' and `{name}', `{winner}' wins" [rule.origin]])
      | none => (taken ++ [⟨c, text, r⟩], [])

/-- The words that rules take from class rules, in the order of the rules, and what is wrong with
the others. -/
def takenWords (g : Grammar) (p : Plan) : List TakenWord × List Diagnostic :=
  (g.lexicalRules.toList.zip p.roles).zipIdx.foldl (fun (taken, ds) ((rule, role), r) =>
    match role with
    | .word text =>
      let (taken, more) := takeWord g p taken r rule text
      (taken, ds ++ more)
    | .dropped | .matched _ => (taken, ds)) ([], [])

/-- The words as table entries, grouped by class rule and sorted by text. -/
def instanceGroups (taken : List TakenWord) : List InstanceGroup :=
  (ascending (taken.map (·.classRule))).map fun c =>
    { classAction := c + 1
      entries := sortBy (fun a b => decide (a.1 < b.1)) (taken.filterMap fun w =>
        if w.classRule = c then some (w.text, w.owner + 1) else none) }

end GrammarTables.Lexical
