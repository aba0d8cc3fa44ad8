import GrammarTables.Lr.Lookahead
import GrammarTables.Lr.Table
/-
# The description of a parser

The construction of parser tables as text, line by line: the productions (`PS`, `P`), the first
terminals of the nonterminals (`FIRST`), the states with their items (`CS`, `C`) and the actions
(`A`).

The functions are `write_prods`, `write_first`, `write_states` and `write_actions`.
-/

namespace GrammarTables.Lr

/-- The names of the symbols; the nonterminal of input `i` is `$i`. -/
def symbolNames (g : Grammar) (p : Productions) : Array String :=
  ((List.range p.byLeft.size).map fun x =>
    if x < p.symbols then g.symbolName x else
      let input := x - p.symbols
      s!"${input}").toArray

/-- Names, each after a blank. -/
def spaced (names : List String) : String := String.join (names.map (" " ++ ·))

/-- The productions. -/
def productionLines (p : Productions) (name : Nat → String) : List String :=
  s!"PS,{p.size}" :: (List.range p.size).map fun rule =>
    let left := name (p.leftOf rule)
    s!"P,{rule},{left} ->" ++ spaced ((p.rightOf rule).map name)

/-- What each nonterminal can begin with. -/
def firstLines (p : Productions) (f : FirstSets) (name : Nat → String) : List String :=
  (List.range (p.symbols - p.terminals)).map fun n =>
    let x := p.terminals + n
    "FIRST," ++ name x ++ ",\x7b" ++ (if f.nullable.getD x false then "`empty', " else "")
      ++ String.join ((f.firstOf x).map (name · ++ ", ")) ++ "\x7d"

/-- An item of a state with the given reductions. -/
def itemText (p : Productions) (rs : Reductions) (name : Nat → String) (i : Item) : String :=
  let right := p.rightOf i.rule
  let las := if i.dot = right.length then
      match rs.find? fun r => r.1 = i.rule with
      | some (_, las) => " [" ++ " ".intercalate (las.map name) ++ "]"
      | none => ""
    else ""
  name (p.leftOf i.rule) ++ " ->" ++ spaced ((right.take i.dot).map name) ++ " ."
    ++ spaced ((right.drop i.dot).map name) ++ las

/-- The states. -/
def stateLines (p : Productions) (a : Automaton) (rs : Array Reductions) (name : Nat → String) :
    List String :=
  s!"CS,{a.size}" :: a.states.toList.zipIdx.flatMap fun (state, s) =>
    state.items.map fun i => s!"C,{s}," ++ itemText p (rs.getD s []) name i

/-- The actions. -/
def actionLines (t : ParseTable) (name : Nat → String) : List String :=
  (List.range t.states).map fun s =>
    let entries := (List.range t.terminals).filterMap fun a =>
      match t.action s a with
      | .error => none
      | action => some (name a ++ "=" ++ action.text)
    let byDefault := match t.defaultReduce.getD s none with
      | some r => [s!"default=r{r}"]
      | none => []
    s!"A,{s}," ++ spaced (entries ++ byDefault)

/-- Describes the construction of parser tables. -/
def describe (g : Grammar) (c : Context) (a : Automaton) (rs : Array Reductions)
    (t : ParseTable) : String :=
  let p := c.productions
  let names := symbolNames g p
  let name (x : Nat) : String := names.getD x ""
  let blocks := [productionLines p name, firstLines p c.firsts name, stateLines p a rs name,
    actionLines t name]
  String.join ((blocks.intersperse [""]).flatten.map (· ++ "\n"))

end GrammarTables.Lr
