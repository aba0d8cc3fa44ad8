import GrammarTables.Graph.Reach
import GrammarTables.Lexical.Expr
/-
# From regular expressions to expressions over sets

Resolving a tree applies the flags in effect at each place, puts in the named patterns, and
computes the operators on sets.  A pattern is expanded under the flags at the reference.
Patterns that refer to themselves, directly or not, cannot be used, so a chain of expansions
is never longer than the list of patterns; that length is the depth to which patterns are
expanded.

The functions are `cyclic_patterns`, `fold`, `fold_class`, `eval_set`, `pattern`, and of `compile`,
`compile_repeat` and `compile_rule` what does not touch the automaton.
-/

namespace GrammarTables.Lexical

open Regex (Tree TextRange FlagChange SetOp)

/-! ## 1. Why a rule cannot be used -/

/-- Why a lexical rule has no meaning. -/
inductive Cause
  | lookaheadOnly
  | lookaheadNotSet
  | misplacedLookahead
  | tooManyCopies (limit : Nat)
  | unusablePattern (name : String)
  | unknownPattern (name : String)
  | inPattern (name : String) (cause : Cause)
  | notASet
  | hasMistakes
deriving DecidableEq

/-- The text of a cause. -/
def Cause.message : Cause → String
  | .lookaheadOnly => "lexical rule cannot consist of a lookahead only"
  | .lookaheadNotSet => "lookahead must be a character set"
  | .misplacedLookahead => "negative lookahead is only allowed at the end of a lexical rule"
  | .tooManyCopies limit => s!"repetition count exceeds {limit}"
  | .unusablePattern name => s!"pattern `{name}' cannot be used"
  | .unknownPattern name => s!"unknown pattern `{name}'"
  | .inPattern name cause => s!"in pattern `{name}': " ++ cause.message
  | .notASet => "set operator requires character sets"
  | .hasMistakes => "regex has syntax errors"

/-- A cause and its place in the text of the rule. -/
structure ResolveError where
  cause : Cause
  range : TextRange
deriving DecidableEq

/-! ## 2. Flags and patterns -/

/-- The flags in effect at some place. -/
structure Flags where
  caseInsensitive : Bool := false
  dotAll : Bool := false
deriving DecidableEq

namespace Flags

/-- The flags inside a group that changes some of them. -/
def apply (f : Flags) (change : Option FlagChange) : Flags :=
  match change with
  | none => f
  | some c =>
    { caseInsensitive := c.caseInsensitive.getD f.caseInsensitive
      dotAll := c.dotAll.getD f.dotAll }

/-- Case folding, where it is asked for. -/
def fold (f : Flags) (s : CharSet) : CharSet := if f.caseInsensitive then s.caseFold else s

/-- What the dot matches. -/
def dot (f : Flags) : CharSet := if f.dotAll then .all else .allButNewline

end Flags

/-- The patterns a rule may refer to, and those among them that cannot be used. -/
structure PatternTable where
  patterns : List NamedPattern
  unusable : List String

/-- The pattern of a name, if it can be used. -/
def PatternTable.find (table : PatternTable) (name : String) : Except Cause NamedPattern :=
  if table.unusable.contains name then .error (.unusablePattern name)
  else match table.patterns.find? fun p => p.name == name with
    | some p => .ok p
    | none => .error (.unknownPattern name)

/-- The patterns that refer to themselves, directly or through others, by their indices. -/
def cyclicPatterns (patterns : List NamedPattern) : List Nat :=
  let n := patterns.length
  let references := (patterns.map fun p => p.regex.root.references.filterMap fun name =>
    patterns.findIdx? fun q => q.name == name).toArray
  let succ (i : Nat) : List Nat := references.getD i []
  (List.range n).filter fun i => (Graph.reach n succ (succ i)).getD i false

/-! ## 3. Sets -/

/-- Combines two sets. -/
def combine (op : SetOp) (s t : CharSet) : CharSet :=
  match op with
  | .difference => s.diff t
  | .union => s.union t
  | .intersection => s.inter t

mutual

/-- The set of single characters that a tree denotes, where `pattern` gives the sets of named
patterns. -/
def setWith (pattern : String → Flags → Except Cause CharSet) (flags : Flags) :
    Tree → Except ResolveError CharSet
  | .char _ c => .ok (flags.fold (.single c))
  | .set _ k => .ok (k.resolve flags.fold)
  | .any _ => .ok flags.dot
  | .expand r name =>
    match pattern name flags with
    | .ok s => .ok s
    | .error cause => .error ⟨cause, r⟩
  | .group _ change inner => setWith pattern (flags.apply change) inner
  | .alt _ items => unionWith pattern flags .empty items
  | .algebra _ op left right => do
    let s ← setWith pattern flags left
    let t ← setWith pattern flags right
    return combine op s t
  | .empty r | .eoi r | .seq r _ | .notFollowedBy r _ | .repeated r _ _ _ | .placeholder r =>
    .error ⟨.notASet, r⟩

/-- The union of `s` with the sets of a list of trees. -/
def unionWith (pattern : String → Flags → Except Cause CharSet) (flags : Flags) (s : CharSet) :
    List Tree → Except ResolveError CharSet
  | [] => .ok s
  | t :: ts => do
    let u ← setWith pattern flags t
    unionWith pattern flags (s.union u) ts

end

/-- The set that a named pattern denotes, with at most `depth` patterns inside each other. -/
def patternSet (table : PatternTable) : Nat → String → Flags → Except Cause CharSet
  | 0, name, _ => do
    discard (table.find name)
    throw (.unusablePattern name)
  | depth + 1, name, flags => do
    let p ← table.find name
    match setWith (patternSet table depth) flags p.regex.root with
    | .ok s => return s
    | .error e => throw e.cause

/-- The set of single characters that a tree denotes. -/
def resolveSet (table : PatternTable) (flags : Flags) (t : Tree) : Except ResolveError CharSet :=
  setWith (patternSet table table.patterns.length) flags t

/-! ## 4. Expressions -/

mutual

/-- The expression of a tree, where `set` and `pattern` give the sets of trees and the
expressions of named patterns, and repetitions have at most `limit` copies. -/
def exprWith (set : Flags → Tree → Except ResolveError CharSet)
    (pattern : String → Flags → Except Cause Expr) (limit : Nat) (flags : Flags) :
    Tree → Except ResolveError Expr
  | .empty _ => .ok (.seq [])
  | .char _ c => .ok (.chars (flags.fold (.single c)))
  | .set _ k => .ok (.chars (k.resolve flags.fold))
  | .any _ => .ok (.chars flags.dot)
  | .eoi _ => .ok (.chars (.single endMark))
  | .expand r name =>
    match pattern name flags with
    | .ok e => .ok e
    | .error cause => .error ⟨cause, r⟩
  | .seq _ items => return .seq (← exprsWith set pattern limit flags items)
  | .alt _ items => return .alt (← exprsWith set pattern limit flags items)
  | .group _ change inner => exprWith set pattern limit (flags.apply change) inner
  | .notFollowedBy r _ => .error ⟨.misplacedLookahead, r⟩
  | .repeated r inner min max =>
    if limit < Nat.max min (max.getD 0) then .error ⟨.tooManyCopies limit, r⟩
    else if min = 0 && max = some 0 then .ok (.repeated (.seq []) 0 (some 0))
    else return .repeated (← exprWith set pattern limit flags inner) min max
  | .algebra r op left right => return .chars (← set flags (.algebra r op left right))
  | .placeholder r => .error ⟨.hasMistakes, r⟩

/-- The expressions of a list of trees. -/
def exprsWith (set : Flags → Tree → Except ResolveError CharSet)
    (pattern : String → Flags → Except Cause Expr) (limit : Nat) (flags : Flags) :
    List Tree → Except ResolveError (List Expr)
  | [] => .ok []
  | t :: ts => do
    let e ← exprWith set pattern limit flags t
    let es ← exprsWith set pattern limit flags ts
    return e :: es

end

/-- The expression of a named pattern, with at most `depth` patterns inside each other. -/
def patternExpr (table : PatternTable) (limit : Nat) : Nat → String → Flags → Except Cause Expr
  | 0, name, _ => do
    discard (table.find name)
    throw (.unusablePattern name)
  | depth + 1, name, flags => do
    let p ← table.find name
    match exprWith (resolveSet table) (patternExpr table limit depth) limit flags p.regex.root with
    | .ok e => return e
    | .error e => throw (.inPattern name e.cause)

/-- The expressions of a list of trees. -/
def resolveAll (table : PatternTable) (limit : Nat) (flags : Flags) (ts : List Tree) :
    Except ResolveError (List Expr) :=
  exprsWith (resolveSet table) (patternExpr table limit table.patterns.length) limit flags ts

/-! ## 5. Rules -/

/-- The body of a rule, and the place and the tree of the lookahead at its end. -/
def splitLookahead : Tree → Except ResolveError (List Tree × Option (TextRange × Tree))
  | .notFollowedBy r _ => .error ⟨.lookaheadOnly, r⟩
  | .seq _ items =>
    match items.getLast? with
    | some (.notFollowedBy r inner) => .ok (items.dropLast, some (r, inner))
    | _ => .ok (items, none)
  | t => .ok ([t], none)

/-- The meaning of the regular expression of a lexical rule.  A negative lookahead may stand at
the end of the rule only, and has to be a set. -/
def resolveRule (table : PatternTable) (limit : Nat) (re : Regex) : Except ResolveError RuleExpr := do
  let (body, ahead) ← splitLookahead re.root
  let lookahead ← match ahead with
    | none => pure none
    | some (r, inner) =>
      match resolveSet table {} inner with
      | .ok s => pure (some s)
      | .error _ => throw ⟨.lookaheadNotSet, r⟩
  let body ← resolveAll table limit {} body
  return { body, lookahead }

end GrammarTables.Lexical
