import Mathlib
import GrammarTables.Lexical.Plan
import GrammarTables.Proofs.CharSet
import GrammarTables.Proofs.Regex.Proper
/-
# What regular expressions mean

The meaning of a regular expression as it was written, without any automaton: the texts it
matches, as words over code points, where the end of the input is one more letter.  Flags hold
from where they are set, case folding reaches characters and the positive parts of classes, a
named pattern means what it means under the flags at the reference, and operators on sets are
operators on sets.

Beside it stands the language of an expression over sets, from which automata are built.
-/

namespace GrammarTables.Lexical

open Regex (Tree TextRange FlagChange SetOp)

/-! ## 1. Characters -/

namespace Flags

/-- The written character `c` may be read as `d`. -/
def Reads (flags : Flags) (c d : Nat) : Prop :=
  d = c ∨ flags.caseInsensitive = true ∧ d ∈ caseVariants c

/-- What the characters of a set may be read as. -/
def readings (flags : Flags) (s : CharSet) : Set Nat := {d | ∃ c ∈ s, flags.Reads c d}

/-- The positive part of a class: its members, and whatever is outside of one of the excluded
sets. -/
def insideClass (flags : Flags) (k : CharClass) : Set Nat :=
  {d | d ∈ flags.readings k.members ∨ ∃ x ∈ k.excluded, d ≤ maxCodePoint ∧ d ∉ flags.readings x}

/-- The characters of a class. -/
def inClass (flags : Flags) (k : CharClass) : Set Nat :=
  {d | if k.negated then d ≤ maxCodePoint ∧ d ∉ flags.insideClass k else d ∈ flags.insideClass k}

/-- What the dot matches: anything, or anything but a line feed. -/
def onDot (flags : Flags) : Set Nat := {d | d ≤ maxCodePoint ∧ (flags.dotAll = false → d ≠ 0x0A)}

end Flags

/-- The operators on sets. -/
def setAlgebra : SetOp → Set Nat → Set Nat → Set Nat
  | .difference, S, T => S \ T
  | .union, S, T => S ∪ T
  | .intersection, S, T => S ∩ T

/-- The tree denotes the set of characters `S`. -/
inductive DenotesSet (table : PatternTable) : Flags → Tree → Set Nat → Prop
  | char (flags : Flags) (r : TextRange) (c : Nat) :
      DenotesSet table flags (.char r c) {d | flags.Reads c d}
  | set (flags : Flags) (r : TextRange) (k : CharClass) :
      DenotesSet table flags (.set r k) (flags.inClass k)
  | any (flags : Flags) (r : TextRange) : DenotesSet table flags (.any r) flags.onDot
  | expand {flags : Flags} {r : TextRange} {name : String} {p : NamedPattern} {S : Set Nat} :
      table.find name = .ok p → DenotesSet table flags p.regex.root S →
      DenotesSet table flags (.expand r name) S
  | group {flags : Flags} {r : TextRange} {change : Option FlagChange} {t : Tree} {S : Set Nat} :
      DenotesSet table (flags.apply change) t S → DenotesSet table flags (.group r change t) S
  | altNil (flags : Flags) (r : TextRange) : DenotesSet table flags (.alt r []) ∅
  | altCons {flags : Flags} {r : TextRange} {t : Tree} {ts : List Tree} {S T : Set Nat} :
      DenotesSet table flags t S → DenotesSet table flags (.alt r ts) T →
      DenotesSet table flags (.alt r (t :: ts)) (S ∪ T)
  | algebra {flags : Flags} {r : TextRange} {op : SetOp} {left right : Tree} {S T : Set Nat} :
      DenotesSet table flags left S → DenotesSet table flags right T →
      DenotesSet table flags (.algebra r op left right) (setAlgebra op S T)

/-! ## 2. Texts -/

/-- **The tree matches the text** under some flags. -/
inductive Matches (table : PatternTable) : Flags → Tree → List Nat → Prop
  | empty (flags : Flags) (r : TextRange) : Matches table flags (.empty r) []
  | char {flags : Flags} {r : TextRange} {c d : Nat} :
      flags.Reads c d → Matches table flags (.char r c) [d]
  | set {flags : Flags} {r : TextRange} {k : CharClass} {d : Nat} :
      d ∈ flags.inClass k → Matches table flags (.set r k) [d]
  | any {flags : Flags} {r : TextRange} {d : Nat} :
      d ∈ flags.onDot → Matches table flags (.any r) [d]
  | eoi (flags : Flags) (r : TextRange) : Matches table flags (.eoi r) [endMark]
  | expand {flags : Flags} {r : TextRange} {name : String} {p : NamedPattern} {w : List Nat} :
      table.find name = .ok p → Matches table flags p.regex.root w →
      Matches table flags (.expand r name) w
  | seqNil (flags : Flags) (r : TextRange) : Matches table flags (.seq r []) []
  | seqCons {flags : Flags} {r : TextRange} {t : Tree} {ts : List Tree} {u v : List Nat} :
      Matches table flags t u → Matches table flags (.seq r ts) v →
      Matches table flags (.seq r (t :: ts)) (u ++ v)
  | alt {flags : Flags} {r : TextRange} {t : Tree} {ts : List Tree} {w : List Nat} :
      t ∈ ts → Matches table flags t w → Matches table flags (.alt r ts) w
  | group {flags : Flags} {r : TextRange} {change : Option FlagChange} {t : Tree}
      {w : List Nat} :
      Matches table (flags.apply change) t w → Matches table flags (.group r change t) w
  | repeated {flags : Flags} {r : TextRange} {t : Tree} {min : Nat} {max : Option Nat}
      {ws : List (List Nat)} : min ≤ ws.length → (∀ m ∈ max, ws.length ≤ m) →
      (∀ w ∈ ws, Matches table flags t w) → Matches table flags (.repeated r t min max) ws.flatten
  | algebra {flags : Flags} {r : TextRange} {op : SetOp} {left right : Tree} {S : Set Nat}
      {d : Nat} : DenotesSet table flags (.algebra r op left right) S → d ∈ S →
      Matches table flags (.algebra r op left right) [d]

/-- **The rule matches the text** when it is followed by the character `next`: its body matches,
and the character is not one that the lookahead at its end forbids. -/
inductive RuleMatches (table : PatternTable) : Tree → List Nat → Option Nat → Prop
  | plain {t : Tree} {w : List Nat} {next : Option Nat} :
      Matches table {} t w → RuleMatches table t w next
  | guarded {r ra : TextRange} {items : List Tree} {ahead : Tree} {w : List Nat}
      {next : Option Nat} {S : Set Nat} : Matches table {} (.seq r items) w →
      DenotesSet table {} ahead S → (∀ c ∈ next, c ∉ S) →
      RuleMatches table (.seq r (items ++ [.notFollowedBy ra ahead])) w next

/-- **The tree can begin by reading the text**, whether or not a text that it matches follows: a
set of characters that has no members still ends what was read before it. -/
inductive Begins (table : PatternTable) : Flags → Tree → List Nat → Prop
  | nil (flags : Flags) (t : Tree) : Begins table flags t []
  | all {flags : Flags} {t : Tree} {w : List Nat} : Matches table flags t w → Begins table flags t w
  | expand {flags : Flags} {r : TextRange} {name : String} {p : NamedPattern} {w : List Nat} :
      table.find name = .ok p → Begins table flags p.regex.root w →
      Begins table flags (.expand r name) w
  | seqHead {flags : Flags} {r : TextRange} {t : Tree} {ts : List Tree} {w : List Nat} :
      Begins table flags t w → Begins table flags (.seq r (t :: ts)) w
  | seqTail {flags : Flags} {r : TextRange} {t : Tree} {ts : List Tree} {u v : List Nat} :
      Matches table flags t u → Begins table flags (.seq r ts) v →
      Begins table flags (.seq r (t :: ts)) (u ++ v)
  | alt {flags : Flags} {r : TextRange} {t : Tree} {ts : List Tree} {w : List Nat} :
      t ∈ ts → Begins table flags t w → Begins table flags (.alt r ts) w
  | group {flags : Flags} {r : TextRange} {change : Option FlagChange} {t : Tree}
      {w : List Nat} :
      Begins table (flags.apply change) t w → Begins table flags (.group r change t) w
  | repeated {flags : Flags} {r : TextRange} {t : Tree} {min : Nat} {max : Option Nat}
      {ws : List (List Nat)} {v : List Nat} : (∀ m ∈ max, ws.length < m) →
      (∀ w ∈ ws, Matches table flags t w) → Begins table flags t v →
      Begins table flags (.repeated r t min max) (ws.flatten ++ v)

/-! ## 3. Where the end of the input stands -/

/-- The end of the input stands somewhere in the tree or in a pattern it refers to. -/
inductive UsesEoi (table : PatternTable) : Tree → Prop
  | here {t : Tree} {r : TextRange} : .eoi r ∈ t.preorder → UsesEoi table t
  | inPattern {t : Tree} {r : TextRange} {name : String} {p : NamedPattern} :
      .expand r name ∈ t.preorder → table.find name = .ok p → UsesEoi table p.regex.root →
      UsesEoi table t

/-- The end of the input stands nowhere in the tree but at the very end of its sequence. -/
inductive EoiLast (table : PatternTable) : Tree → Prop
  | free {t : Tree} : ¬ UsesEoi table t → EoiLast table t
  | eoi (r : TextRange) : EoiLast table (.eoi r)
  | expand {r : TextRange} {name : String} {p : NamedPattern} : table.find name = .ok p →
      EoiLast table p.regex.root → EoiLast table (.expand r name)
  | group {r : TextRange} {change : Option FlagChange} {t : Tree} :
      EoiLast table t → EoiLast table (.group r change t)
  | seq {r : TextRange} {init : List Tree} {last : Tree} : (∀ t ∈ init, ¬ UsesEoi table t) →
      EoiLast table last → EoiLast table (.seq r (init ++ [last]))

/-- The same for a rule, where a lookahead may follow. -/
inductive RuleEoiLast (table : PatternTable) : Tree → Prop
  | plain {t : Tree} : EoiLast table t → RuleEoiLast table t
  | guarded {r ra : TextRange} {items : List Tree} {ahead : Tree} : EoiLast table (.seq r items) →
      RuleEoiLast table (.seq r (items ++ [.notFollowedBy ra ahead]))

/-! ## 4. Expressions over sets -/

/-- The words of one letter from a set. -/
def letters (s : CharSet) : Language Nat := {w | ∃ c ∈ s, w = [c]}

theorem mem_letters {s : CharSet} {w : List Nat} : w ∈ letters s ↔ ∃ c ∈ s, w = [c] := Iff.rfl

/-- Between `min` and `max` copies; at least `min` in any case. -/
def CopiesAllowed (min : Nat) (max : Option Nat) (n : Nat) : Prop :=
  min ≤ n ∧ ∀ m ∈ max, n ≤ Nat.max min m

/-- Copies of words of a language, one after the other. -/
def copies (L : Language Nat) (min : Nat) (max : Option Nat) : Language Nat :=
  {w | ∃ n, CopiesAllowed min max n ∧ w ∈ L ^ n}

theorem mem_copies {L : Language Nat} {min : Nat} {max : Option Nat} {w : List Nat} :
    w ∈ copies L min max ↔ ∃ n, CopiesAllowed min max n ∧ w ∈ L ^ n := Iff.rfl

mutual

/-- The language of an expression. -/
def Expr.language : Expr → Language Nat
  | .chars set => letters set
  | .seq items => seqLanguage items
  | .alt items => altLanguage items
  | .repeated inner min max => copies inner.language min max

/-- The language of expressions one after the other. -/
def seqLanguage : List Expr → Language Nat
  | [] => 1
  | e :: es => e.language * seqLanguage es

/-- The language of expressions side by side. -/
def altLanguage : List Expr → Language Nat
  | [] => 0
  | e :: es => e.language + altLanguage es

end

/-- A copy of which `v ∈ B` is read, after copies that are read as a whole. -/
def copiesBegun (L B : Language Nat) (min : Nat) (max : Option Nat) : Language Nat :=
  {w | ∃ n, (∀ m ∈ max, n < Nat.max min m) ∧ w ∈ L ^ n * B}

mutual

/-- The words that an expression can begin by reading. -/
def Expr.begun : Expr → Language Nat
  | .chars set => 1 + letters set
  | .seq items => seqBegun items
  | .alt items => altBegun items
  | .repeated inner min max => 1 + copiesBegun inner.language inner.begun min max

/-- The same for expressions one after the other. -/
def seqBegun : List Expr → Language Nat
  | [] => 1
  | e :: es => e.begun + e.language * seqBegun es

/-- The same for expressions side by side. -/
def altBegun : List Expr → Language Nat
  | [] => 1
  | e :: es => e.begun + altBegun es

end

/-- No set of the expression contains the end of the input. -/
inductive Expr.EoiFree : Expr → Prop
  | chars {set : CharSet} : endMark ∉ set → EoiFree (.chars set)
  | seq {items : List Expr} : (∀ e ∈ items, EoiFree e) → EoiFree (.seq items)
  | alt {items : List Expr} : (∀ e ∈ items, EoiFree e) → EoiFree (.alt items)
  | repeated {inner : Expr} {min : Nat} {max : Option Nat} :
      EoiFree inner → EoiFree (.repeated inner min max)

/-- The end of the input is read last, if at all. -/
inductive Expr.EoiLast : Expr → Prop
  | free {e : Expr} : e.EoiFree → EoiLast e
  | eoi : EoiLast (.chars (.single endMark))
  | seq {init : List Expr} {last : Expr} : (∀ e ∈ init, e.EoiFree) → EoiLast last →
      EoiLast (.seq (init ++ [last]))

end GrammarTables.Lexical
