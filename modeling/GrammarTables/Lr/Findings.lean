import GrammarTables.Ascending
import GrammarTables.Graph.Reach
import GrammarTables.Lr.Productions
import GrammarTables.Lr.Table
/-
# What there is to say about the rules of a grammar

Nonterminals without rules, nonterminals that no input reaches, terminals that no rule uses, and
conflicts.

The functions are `check_symbols` and `report_conflicts`.
-/

namespace GrammarTables.Lr

/-! ## 1. Symbols -/

/-- The nonterminals of a grammar, ascending. -/
def nonterminalsOf (g : Grammar) : List Nat :=
  (List.range g.nonterminals).map (g.terminals + ·)

/-- The nonterminals that are the left side of no rule. -/
def undefinedNonterminals (g : Grammar) : List Nat :=
  (nonterminalsOf g).filter fun x => g.ruleList.all fun r => r.left ≠ x

/-- The nonterminals in the right sides of the rules of a symbol. -/
def usedBy (g : Grammar) (x : Nat) : List Nat :=
  (g.ruleList.filter fun r => r.left = x).flatMap fun r =>
    (r.right.map (·.target)).filter (g.terminals ≤ ·)

/-- The nonterminals that no input reaches. -/
def unreachableNonterminals (g : Grammar) : List Nat :=
  let marks := Graph.reach g.grammarSymbols (usedBy g) (g.inputList.map (·.target))
  (nonterminalsOf g).filter fun x => !marks.getD x false

/-- The terminals, other than the end of the input and the mark of errors, that no rule uses. -/
def unusedTerminals (g : Grammar) : List Nat :=
  (List.range g.terminals).filter fun t =>
    t ≠ g.eoi && some t ≠ g.error && g.ruleList.all fun r => r.right.all fun s => s.target ≠ t

/-- Everything there is to say about symbols. -/
def symbolFindings (g : Grammar) : List Diagnostic :=
  ((undefinedNonterminals g).map fun x =>
    let name := g.symbolName x
    .error .undefinedNonterminal s!"nonterminal `{name}' has no rules" [g.symbolOrigin x])
  ++ ((unreachableNonterminals g).map fun x =>
    let name := g.symbolName x
    .warning .unreachableNonterminal s!"nonterminal `{name}' is not reachable from any input"
      [g.symbolOrigin x])
  ++ ((unusedTerminals g).map fun t =>
    let name := g.symbolName t
    .warning .unusedTerminal s!"terminal `{name}' is not used in any rule" [g.symbolOrigin t])

/-! ## 2. Conflicts -/

/-- Kinds of conflicts in the order of reporting. -/
def ConflictKind.rank : ConflictKind → Nat
  | .shiftReduce .shift => 0
  | .shiftReduce .reduce => 1
  | .shiftReduce .nonAssoc => 2
  | .shiftReduce .shiftByDefault => 3
  | .reduceReduce => 4

/-- Lexicographic order of lists of numbers. -/
def listBefore : List Nat → List Nat → Bool
  | [], [] => false
  | [], _ :: _ => true
  | _ :: _, [] => false
  | m :: ms, n :: ns => m < n || (m = n && listBefore ms ns)

/-- Conflicts that are reported together differ in the lookahead only. -/
structure ConflictKey where
  state : Nat
  kind : ConflictKind
  rules : List Nat
deriving DecidableEq

/-- What a conflict is about, apart from the lookahead. -/
def Conflict.key (c : Conflict) : ConflictKey := ⟨c.state, c.kind, c.rules⟩

/-- Order by state, then by kind, then by rules. -/
def ConflictKey.before (a b : ConflictKey) : Bool :=
  a.state < b.state || (a.state = b.state &&
    (a.kind.rank < b.kind.rank || (a.kind = b.kind && listBefore a.rules b.rules)))

/-- A production as text; that of input `i` has the left side `$i`. -/
def productionText (g : Grammar) (p : Productions) (rule : Nat) : String :=
  match g.ruleList[rule]? with
  | some r => g.ruleText r
  | none =>
    let input := rule - p.rules
    let target := g.symbolName ((p.rightOf rule).headD 0)
    s!"${input} ::= {target}"

/-- The finding for conflicts that are reported together. -/
def conflictFinding (g : Grammar) (p : Productions) (key : ConflictKey) (lookaheads : List Nat) :
    Diagnostic :=
  let las := ", ".intercalate (lookaheads.map fun t => "`" ++ g.symbolName t ++ "'")
  let texts := key.rules.map (productionText g p)
  let first := texts.headD ""
  let others := "', `".intercalate (texts.drop 1)
  let places := key.rules.map fun r => g.ruleList[r]?.bind (·.origin)
  let state := key.state
  match key.kind with
  | .shiftReduce .nonAssoc =>
    .error .grammarConflict s!"{las} is non-associative in state {state}, reducing `{first}'" places
  | .shiftReduce _ =>
    .warning .grammarConflict (s!"shift/reduce conflict on {las} in state {state}, "
      ++ s!"shifting instead of reducing `{first}'") places
  | .reduceReduce =>
    .warning .grammarConflict (s!"reduce/reduce conflict on {las} in state {state}, "
      ++ s!"`{first}' wins over `{others}'") places

/-- Everything there is to say about conflicts. -/
def conflictFindings (g : Grammar) (p : Productions) (conflicts : List Conflict) :
    List Diagnostic :=
  (sortBy ConflictKey.before (conflicts.map Conflict.key)).map fun key =>
    conflictFinding g p key ((conflicts.filter fun c => c.key = key).map (·.lookahead))

end GrammarTables.Lr
