import GrammarTables.Regex.Lexer
/-
# Reading regular expressions

The grammar, over tokens:

    alt     := seq ('|' seq)*
    seq     := term*
    term    := setexpr quantifier*
    setexpr := primary (setop primary)*
    primary := char | class | '.' | name | eoi | group | bracket expression

The reader goes over the tokens once.  Its state holds the alternation it is in, the open
groups around it, and the open bracket expression if there is one, so each token is one step.
It never stops at a mistake: the part in question becomes a placeholder, the mistake is noted
with its place, and reading goes on.

The functions are `parse_alt`, `parse_seq`, `parse_term`, `parse_set_expr`, `parse_primary`,
`parse_group` and `parse_class`; the open groups of the state are the calls of a recursive descent
that have not returned.
-/

namespace GrammarTables.Regex

/-! ## 1. Mistakes -/

/-- What can be wrong with a regular expression. -/
inductive Fault
  | token (fault : TokenFault)
  | unbalanced
  | badBounds (min max : Nat)
  | missingOperand
  | loneQuantifier
  | loneSetOp
  | unexpectedToken
  | unterminatedGroup
  | invalidRange
  | classEndsRange
  | unexpectedInClass
  | unterminatedClass
  | emptyClass
deriving DecidableEq

/-- The text of a mistake. -/
def Fault.message : Fault → String
  | .token fault => fault.message
  | .unbalanced => "unbalanced `)'"
  | .badBounds min max => s!"bad repetition bounds \x7b{min},{max}\x7d"
  | .missingOperand => "missing right operand of set operator"
  | .loneQuantifier => "quantifier without operand"
  | .loneSetOp => "set operator without left operand"
  | .unexpectedToken => "unexpected token"
  | .unterminatedGroup => "unterminated group"
  | .invalidRange => "invalid character range"
  | .classEndsRange => "character class cannot end a range"
  | .unexpectedInClass => "unexpected token in character class"
  | .unterminatedClass => "unterminated character class"
  | .emptyClass => "empty character class"

/-- A mistake and its place. -/
structure Issue where
  fault : Fault
  range : TextRange
deriving DecidableEq

/-! ## 2. The alternation being read -/

/-- The last term of a sequence, as far as it was read. -/
inductive Pending
  /-- No term was begun. -/
  | none
  /-- A set expression; an operator or a quantifier may follow. -/
  | operand (tree : Tree)
  /-- A term with a quantifier; more quantifiers may follow. -/
  | quantified (tree : Tree)
  /-- A set operator that lacks its right operand. -/
  | awaiting (left : Tree) (op : SetOp)

/-- An alternation as far as it was read. -/
structure Level where
  /-- The finished alternatives, last first. -/
  alternatives : List Tree := []
  /-- The finished terms of the last alternative, last first. -/
  items : List Tree := []
  pending : Pending := .none

namespace Level

/-- Takes a primary: the right operand of a waiting operator, or the beginning of a new term. -/
def primary (l : Level) (t : Tree) : Level :=
  match l.pending with
  | .none => { l with pending := .operand t }
  | .operand u | .quantified u => { l with items := u :: l.items, pending := .operand t }
  | .awaiting left op =>
    { l with pending := .operand (.algebra (left.range.cover t.range) op left t) }

/-- The terms of the last alternative, last first, when it ends at byte `offset`. -/
def terms (l : Level) (offset : Nat) : List Tree × List Issue :=
  match l.pending with
  | .none => (l.items, [])
  | .operand t | .quantified t => (t :: l.items, [])
  | .awaiting left op =>
    let hole := TextRange.point offset
    (.algebra (left.range.cover hole) op left (.placeholder hole) :: l.items,
      [⟨.missingOperand, hole⟩])

/-- The tree of a sequence of terms that ends at byte `offset`. -/
def sequence (terms : List Tree) (offset : Nat) : Tree :=
  match terms with
  | [] => .empty (.point offset)
  | [t] => t
  | ts => .seq (Tree.coverAll ts) ts

/-- The last alternative, when it ends at byte `offset`. -/
def lastAlternative (l : Level) (offset : Nat) : Tree × List Issue :=
  let (ts, issues) := l.terms offset
  (sequence ts.reverse offset, issues)

/-- The alternation after a `|` at byte `offset`. -/
def bar (l : Level) (offset : Nat) : Level × List Issue :=
  let (t, issues) := l.lastAlternative offset
  ({ alternatives := t :: l.alternatives }, issues)

/-- The tree of the alternation, when it ends at byte `offset`. -/
def close (l : Level) (offset : Nat) : Tree × List Issue :=
  let (t, issues) := l.lastAlternative offset
  match l.alternatives with
  | [] => (t, issues)
  | ts =>
    let all := (t :: ts).reverse
    (.alt (Tree.coverAll all) all, issues)

/-- Applies a quantifier, if there is a term. -/
def quantify (l : Level) (min : Nat) (max : Option Nat) (range : TextRange) :
    Level × List Issue :=
  match l.pending with
  | .operand t | .quantified t =>
    let whole := t.range.cover range
    match max with
    | some m =>
      if m < min then
        ({ l with pending := .quantified (.repeated whole t min (some min)) },
          [⟨.badBounds min m, range⟩])
      else ({ l with pending := .quantified (.repeated whole t min max) }, [])
    | none => ({ l with pending := .quantified (.repeated whole t min none) }, [])
  | .none | .awaiting _ _ =>
    (l.primary (.placeholder range), [⟨.loneQuantifier, range⟩])

/-- Takes a set operator, if there is a set expression. -/
def operator (l : Level) (op : SetOp) (range : TextRange) : Level × List Issue :=
  match l.pending with
  | .operand t => ({ l with pending := .awaiting t op }, [])
  | .none | .quantified _ | .awaiting _ _ =>
    (l.primary (.placeholder range), [⟨.loneSetOp, range⟩])

/-- Takes a placeholder for something that is wrong. -/
def mistake (l : Level) (fault : Fault) (range : TextRange) : Level × List Issue :=
  (l.primary (.placeholder range), [⟨fault, range⟩])

end Level

/-! ## 3. The bracket expression being read -/

/-- A bracket expression as far as it was read. -/
structure Bracket where
  start : Nat
  negated : Bool
  chars : CharClass := {}
  /-- The last item, if it was a character. -/
  last : Option Nat := none
  /-- The lower end of a range whose hyphen was read, and the place of the hyphen. -/
  open? : Option (Nat × TextRange) := none

namespace Bracket

/-- Adds an item that cannot begin a range. -/
def add (b : Bracket) (item : CharClass) : Bracket :=
  { b with chars := b.chars.add item, last := none, open? := none }

/-- Adds a character. -/
def addChar (b : Bracket) (c : Nat) : Bracket := { b.add (.of (.single c)) with last := some c }

/-- Takes a token, other than the closing bracket, where no range is open. -/
def item (b : Bracket) (x : Lexeme) : Bracket × List Issue :=
  match x.token with
  | .char c => (b.addChar c, [])
  | .set k => (b.add k, [])
  | .dash =>
    match b.last with
    | some lo => ({ b with open? := some (lo, x.range) }, [])
    | none => (b.add (.of (.single 0x2D)), [])
  | .invalid fault => ({ b with last := none }, [⟨.token fault, x.range⟩])
  | _ => ({ b with last := none }, [⟨.unexpectedInClass, x.range⟩])

/-- A hyphen that turned out not to make a range is an item of its own. -/
def settle (b : Bracket) : Bracket :=
  match b.open? with
  | some _ => b.add (.of (.single 0x2D))
  | none => b

/-- Takes a token other than the closing bracket. -/
def step (b : Bracket) (x : Lexeme) : Bracket × List Issue :=
  match b.open?, x.token with
  | some (lo, hyphen), .char hi =>
    if hi < lo then
      ({ b with last := none, open? := none }, [⟨.invalidRange, hyphen.cover x.range⟩])
    else (b.add (.of (.range lo hi)), [])
  | some (_, hyphen), .set _ =>
    ({ b with last := none, open? := none }, [⟨.classEndsRange, hyphen.cover x.range⟩])
  | _, _ => b.settle.item x

/-- The tree of the bracket expression, when it ends at byte `stop`. -/
def close (b : Bracket) (stop : Nat) : Tree × List Issue :=
  let b := b.settle
  let range : TextRange := ⟨b.start, stop⟩
  (.set range { b.chars with negated := b.negated },
    if b.chars.isEmpty && !b.negated then [⟨.emptyClass, range⟩] else [])

end Bracket

/-! ## 4. The whole expression -/

/-- A group that was opened and not yet closed. -/
structure OpenGroup where
  kind : GroupKind
  start : Nat
  /-- The alternation the group stands in. -/
  outer : Level

/-- The tree of a closed group. -/
def GroupKind.tree (kind : GroupKind) (range : TextRange) (inner : Tree) : Tree :=
  match kind with
  | .plain => .group range none inner
  | .flags change => .group range (some change) inner
  | .notFollowedBy => .notFollowedBy range inner

/-- What was read of a regular expression. -/
structure ReadState where
  /-- What stands before the last unbalanced `)`. -/
  before : Option Tree := none
  /-- The open groups, innermost first. -/
  groups : List OpenGroup := []
  /-- The innermost alternation. -/
  level : Level := {}
  bracket : Option Bracket := none
  /-- The mistakes, last first. -/
  issues : List Issue := []

namespace ReadState

/-- Replaces the innermost alternation and notes mistakes. -/
def put (st : ReadState) (result : Level × List Issue) : ReadState :=
  { st with level := result.1, issues := result.2.reverse ++ st.issues }

/-- What stands before an unbalanced `)`, with one more piece. -/
def joined (before : Option Tree) (t : Tree) : Tree :=
  match before with
  | none => t
  | some u => .seq (u.range.cover t.range) [u, t]

/-- Takes a closing parenthesis. -/
def closeGroup (st : ReadState) (range : TextRange) : ReadState :=
  let (t, issues) := st.level.close range.start
  match st.groups with
  | g :: rest =>
    { st with
      groups := rest
      level := g.outer.primary (g.kind.tree ⟨g.start, range.stop⟩ t)
      issues := issues.reverse ++ st.issues }
  | [] =>
    { st with
      before := some (joined st.before t)
      level := {}
      issues := ⟨.unbalanced, range⟩ :: (issues.reverse ++ st.issues) }

/-- Takes a token outside brackets. -/
def bodyStep (st : ReadState) (x : Lexeme) : ReadState :=
  let l := st.level
  match x.token with
  | .char c => st.put (l.primary (.char x.range c), [])
  | .set k => st.put (l.primary (.set x.range k), [])
  | .any => st.put (l.primary (.any x.range), [])
  | .eoi => st.put (l.primary (.eoi x.range), [])
  | .expand name => st.put (l.primary (.expand x.range name), [])
  | .star => st.put (l.quantify 0 none x.range)
  | .plus => st.put (l.quantify 1 none x.range)
  | .quest => st.put (l.quantify 0 (some 1) x.range)
  | .times min max => st.put (l.quantify min max x.range)
  | .setOp op => st.put (l.operator op x.range)
  | .or => st.put (l.bar x.range.start)
  | .openGroup kind =>
    { st with groups := ⟨kind, x.range.start, l⟩ :: st.groups, level := {} }
  | .closeGroup => st.closeGroup x.range
  | .openClass negated => { st with bracket := some { start := x.range.start, negated } }
  | .invalid fault => st.put (l.mistake (.token fault) x.range)
  | .closeClass | .dash => st.put (l.mistake .unexpectedToken x.range)

/-- Takes a token inside brackets. -/
def classStep (st : ReadState) (b : Bracket) (x : Lexeme) : ReadState :=
  match x.token with
  | .closeClass =>
    let (t, issues) := b.close x.range.stop
    { st.put (st.level.primary t, issues) with bracket := none }
  | _ =>
    let (b, issues) := b.step x
    { st with bracket := some b, issues := issues.reverse ++ st.issues }

/-- Takes a token. -/
def step (st : ReadState) (x : Lexeme) : ReadState :=
  match st.bracket with
  | some b => st.classStep b x
  | none => st.bodyStep x

/-- Ends a bracket expression that was not closed in a text of `size` bytes. -/
def endBracket (st : ReadState) (size : Nat) : ReadState :=
  match st.bracket with
  | some b => { st.put (st.level.mistake .unterminatedClass ⟨b.start, size⟩) with bracket := none }
  | none => st

/-- Ends the groups that were not closed, innermost first. -/
def endGroups (size : Nat) : List OpenGroup → Level → List Issue → Tree × List Issue
  | [], l, issues =>
    let (t, more) := l.close size
    (t, more.reverse ++ issues)
  | g :: rest, l, issues =>
    let (t, more) := l.close size
    let range : TextRange := ⟨g.start, size⟩
    endGroups size rest (g.outer.primary (g.kind.tree range t))
      (⟨.unterminatedGroup, range⟩ :: (more.reverse ++ issues))

/-- The tree and the mistakes, in order, of a text of `size` bytes that was read. -/
def finish (st : ReadState) (size : Nat) : Tree × List Issue :=
  let st := st.endBracket size
  let (t, issues) := endGroups size st.groups st.level st.issues
  (joined st.before t, issues.reverse)

end ReadState

/-- The tree of a list of tokens that cover `size` bytes, and what is wrong with it. -/
def parseLexemes (xs : List Lexeme) (size : Nat) : Tree × List Issue :=
  (xs.foldl ReadState.step {}).finish size

/-- The tree of a regular expression, and what is wrong with it. -/
def parseText (d : Dialect) (text : List Char) : Tree × List Issue :=
  parseLexemes (lexemes d text) (byteLength text)

end GrammarTables.Regex
