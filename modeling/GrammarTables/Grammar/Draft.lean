import GrammarTables.Ascending
import GrammarTables.Grammar.Basic
/-
# Writing a grammar

A `Draft` collects declarations and checks each one.  A declaration that is rejected leaves
the draft as it was; one that is accepted gives a handle.  Handles are stamped, so a handle of
another draft is rejected wherever it is offered.  `Draft.freeze` turns the draft into a
`Grammar`.

The functions are `add_symbol` with its four callers, `add_pattern`, `add_state`, `parse_regex`,
`add_lexem`, `add_prio`, `add_input`, `add_rule`, `symbol`, `precedence` and `commit` of a rule
being written, and `create`.
-/

namespace GrammarTables

/-- A grammar that is being written. -/
structure Draft where
  /-- The stamp of the handles of this draft. -/
  stamp : Nat
  symbols : Array Symbol
  patterns : Array NamedPattern := #[]
  states : Array LexerState := #[]
  lexicalRules : Array LexicalRule := #[]
  rules : Array Rule := #[]
  priorities : Array Priority := #[]
  inputs : Array Input := #[]

namespace Draft

/-- The draft that declares nothing but the end of the input. -/
def new (stamp : Nat) : Draft :=
  { stamp, symbols := #[{ index := 0, name := eoiName, kind := .terminal }] }

/-- The handle of the end of the input. -/
def eoi (d : Draft) : Handle .symbol := ⟨d.stamp, 0⟩

/-! ## 1. Looking up -/

/-- The handle of the symbol of a name. -/
def symbol? (d : Draft) (name : String) : Option (Handle .symbol) :=
  (d.symbols.findIdx? fun s => s.name == name).map (⟨d.stamp, ·⟩)

/-- The handle of the lexer state of a name. -/
def state? (d : Draft) (name : String) : Option (Handle .lexerState) :=
  (d.states.findIdx? fun s => s.name == name).map (⟨d.stamp, ·⟩)

/-- The handle of the pattern of a name. -/
def pattern? (d : Draft) (name : String) : Option (Handle .pattern) :=
  (d.patterns.findIdx? fun p => p.name == name).map (⟨d.stamp, ·⟩)

/-- The symbol that a handle names. -/
def resolve (d : Draft) (h : Handle .symbol) : Except GrammarError Symbol :=
  match if h.draft = d.stamp then d.symbols[h.index]? else none with
  | some s => .ok s
  | none => .error (.unknownEntity .symbol h.index)

/-- The nonterminal that a handle names. -/
def resolveNonterminal (d : Draft) (h : Handle .symbol) : Except GrammarError Symbol := do
  let s ← d.resolve h
  if s.kind = .nonterminal then return s else throw (.notNonterminal s.name)

/-- The terminal that a handle names. -/
def resolveTerminal (d : Draft) (h : Handle .symbol) : Except GrammarError Symbol := do
  let s ← d.resolve h
  if s.kind.isTerminal then return s else throw (.notTerminal s.name)

/-! ## 2. Symbols -/

/-- Declares a symbol. -/
def addSymbol (d : Draft) (name : String) (kind : SymbolKind) (typeTag : Option String)
    (softClass : Option Nat) (origin : Option Anchor) :
    Except GrammarError (Handle .symbol × Draft) :=
  match d.symbol? name with
  | some _ => .error (.duplicateName .symbol name)
  | none =>
    let index := d.symbols.size
    .ok (⟨d.stamp, index⟩,
      { d with symbols := d.symbols.push { index, name, kind, typeTag, softClass, origin } })

/-- Declares a terminal. -/
def addTerminal (d : Draft) (name : String) (typeTag : Option String) (origin : Option Anchor) :
    Except GrammarError (Handle .symbol × Draft) :=
  d.addSymbol name .terminal typeTag none origin

/-- Declares a nonterminal. -/
def addNonterminal (d : Draft) (name : String) (typeTag : Option String)
    (origin : Option Anchor) : Except GrammarError (Handle .symbol × Draft) :=
  d.addSymbol name .nonterminal typeTag none origin

/-- Declares a layout symbol. -/
def addLayout (d : Draft) (name : String) (typeTag : Option String) (origin : Option Anchor) :
    Except GrammarError (Handle .symbol × Draft) :=
  d.addSymbol name .layout typeTag none origin

/-- Declares a soft terminal, which has the type of the terminal it refines. -/
def addSoftTerminal (d : Draft) (name : String) (softClass : Handle .symbol)
    (origin : Option Anchor) : Except GrammarError (Handle .symbol × Draft) := do
  let c ← d.resolve softClass
  if c.kind ≠ .terminal || softClass = d.eoi then throw (.notTerminal c.name)
  d.addSymbol name .softTerminal c.typeTag (some softClass.index) origin

/-! ## 3. Lexical parts -/

/-- Declares a named pattern. -/
def addPattern (d : Draft) (name : String) (regex : Regex) (origin : Option Anchor) :
    Except GrammarError (Handle .pattern × Draft) :=
  match d.pattern? name with
  | some _ => .error (.duplicateName .pattern name)
  | none =>
    .ok (⟨d.stamp, d.patterns.size⟩, { d with patterns := d.patterns.push { name, regex, origin } })

/-- Declares a lexer state. -/
def addState (d : Draft) (name : String) (origin : Option Anchor) :
    Except GrammarError (Handle .lexerState × Draft) :=
  match d.state? name with
  | some _ => .error (.duplicateName .lexerState name)
  | none => .ok (⟨d.stamp, d.states.size⟩, { d with states := d.states.push { name, origin } })

/-- A symbol fits a kind of lexical rule if it is a soft terminal for a soft rule, and a terminal
other than the end of the input or a layout symbol for the others. -/
def fits (d : Draft) (kind : LexicalKind) (h : Handle .symbol) (s : Symbol) : Bool :=
  match kind with
  | .soft => s.kind = .softTerminal
  | .normal | .wordClass => (s.kind = .terminal || s.kind = .layout) && h ≠ d.eoi

/-- Checks that a handle names a lexer state. -/
def checkState (d : Draft) (h : Handle .lexerState) : Except GrammarError Unit :=
  if h.draft = d.stamp && h.index < d.states.size then .ok ()
  else .error (.unknownEntity .lexerState h.index)

/-- Checks that a handle names a class rule. -/
def checkClassRule (d : Draft) (h : Handle .lexicalRule) : Except GrammarError Unit :=
  match if h.draft = d.stamp then d.lexicalRules[h.index]? else none with
  | some r => if r.kind = .wordClass then .ok () else .error (.notClassRule h.index)
  | none => .error (.unknownEntity .lexicalRule h.index)

/-- Declares a lexical rule.  A regular expression with mistakes is accepted; the rule is then
left out of the tables. -/
def addLexicalRule (d : Draft) (kind : LexicalKind) (symbol : Handle .symbol) (regex : Regex)
    (states : List (Handle .lexerState)) (priority : Int)
    (classRule : Option (Handle .lexicalRule)) (origin : Option Anchor) :
    Except GrammarError (Handle .lexicalRule × Draft) := do
  let s ← d.resolve symbol
  if !d.fits kind symbol s then throw (.kindMismatch kind s.name)
  if states.isEmpty then throw (.noStates s.name)
  states.forM d.checkState
  match classRule with
  | some h => d.checkClassRule h
  | none => pure ()
  let rule : LexicalRule :=
    { kind, symbol := symbol.index, regex
      states := ascending (states.map (·.index))
      priority, classRule := classRule.map (·.index), origin }
  return (⟨d.stamp, d.lexicalRules.size⟩, { d with lexicalRules := d.lexicalRules.push rule })

/-! ## 4. Rules -/

/-- Declares a level of precedence above all earlier ones. -/
def addPriority (d : Draft) (assoc : Assoc) (symbols : List (Handle .symbol))
    (origin : Option Anchor) : Except GrammarError Draft := do
  symbols.forM fun h => discard (d.resolveTerminal h)
  let priority : Priority := { assoc, symbols := symbols.map (·.index), origin }
  return { d with priorities := d.priorities.push priority }

/-- Declares an input. -/
def addInput (d : Draft) (target : Handle .symbol) (hasEoi : Bool) (origin : Option Anchor) :
    Except GrammarError Draft := do
  discard (d.resolveNonterminal target)
  return { d with inputs := d.inputs.push { target := target.index, hasEoi, origin } }

/-- Begins a rule; the draft has it only after `commit`. -/
def beginRule (d : Draft) (label : Option String) (left : Handle .symbol)
    (origin : Option Anchor) : Except GrammarError Rule := do
  discard (d.resolveNonterminal left)
  return { left := left.index, right := [], label, origin }

/-- Appends a symbol to the right side of a rule: a terminal other than the end of the input, or
a nonterminal. -/
def appendSymbol (d : Draft) (r : Rule) (h : Handle .symbol) (label : Option String)
    (origin : Option Anchor) : Except GrammarError Rule := do
  let s ← d.resolve h
  if s.kind = .layout || h = d.eoi then throw (.notRuleSymbol s.name)
  return { r with right := r.right ++ [{ target := h.index, label, origin }] }

/-- Gives a rule the precedence of a terminal. -/
def setPrecedence (d : Draft) (r : Rule) (h : Handle .symbol) : Except GrammarError Rule := do
  discard (d.resolveTerminal h)
  return { r with precedence := some h.index }

/-- Puts a rule into the draft. -/
def commit (d : Draft) (r : Rule) : Nat × Draft :=
  (d.rules.size, { d with rules := d.rules.push r })

/-- Declares a rule without labels and places. -/
def addRule (d : Draft) (left : Handle .symbol) (right : List (Handle .symbol)) :
    Except GrammarError (Nat × Draft) := do
  let r ← d.beginRule none left none
  let r ← right.foldlM (fun r h => d.appendSymbol r h none none) r
  return d.commit r

/-! ## 5. Freezing -/

/-- The indices of the symbols whose kind satisfies `p`, in the order of declaration. -/
def indicesWhere (d : Draft) (p : SymbolKind → Bool) : List Nat :=
  (List.range d.symbols.size).filter fun i =>
    match d.symbols[i]? with
    | some s => p s.kind
    | none => false

/-- The indices of declaration in the order of the grammar: terminals, nonterminals, layout. -/
def order (d : Draft) : List Nat :=
  d.indicesWhere SymbolKind.isTerminal ++ d.indicesWhere (· = .nonterminal)
    ++ d.indicesWhere (· = .layout)

/-- The grammar that was written. -/
def freeze (d : Draft) : Grammar :=
  let order := d.order
  let positions := ((List.range d.symbols.size).map order.idxOf).toArray
  let position (i : Nat) : Nat := positions.getD i 0
  let symbols := (order.zipIdx.filterMap fun (old, new) => d.symbols[old]?.map fun s =>
    { s with index := new, softClass := s.softClass.map position }).toArray
  let hasRules := !d.rules.isEmpty
  { draft := d.stamp
    symbols
    terminals := symbols.countP (·.kind.isTerminal)
    grammarSymbols := symbols.countP (·.kind ≠ .layout)
    rules := if hasRules then some (d.rules.map fun r =>
      { r with
        left := position r.left
        right := r.right.map fun s => { s with target := position s.target }
        precedence := r.precedence.map position }) else none
    priorities := if hasRules then some (d.priorities.map fun p =>
      { p with symbols := p.symbols.map position }) else none
    inputs := if hasRules then some (d.inputs.map fun i =>
      { i with target := position i.target }) else none
    lexicalRules := d.lexicalRules.map fun r => { r with symbol := position r.symbol }
    patterns := d.patterns
    states := d.states
    error := symbols.findIdx? fun s => s.name == errorName
    positions }

end Draft

end GrammarTables
