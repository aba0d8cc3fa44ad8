import GrammarTables.Regex.Tree
/-
# Tokens of regular expressions

What the text of a regular expression is cut into, with the faults a token can have.
-/

namespace GrammarTables.Regex

/-! ## 1. Faults -/

/-- Why a piece of text is no token. -/
inductive TokenFault
  /-- A construct was begun and cannot be completed. -/
  | unexpected (slice : String)
  | trailingBackslash
  | badEscape (slice : String)
  /-- An escape names a number that is no Unicode scalar value. -/
  | outOfRange (slice : String)
  | unknownProperty (name : String)
  /-- A repetition count does not fit 32 bits. -/
  | countTooLarge (slice : String)
deriving DecidableEq

/-- The text of a fault. -/
def TokenFault.message : TokenFault → String
  | .unexpected slice => s!"unexpected `{slice}'"
  | .trailingBackslash => "trailing backslash"
  | .badEscape slice => s!"invalid escape sequence `{slice}'"
  | .outOfRange slice => s!"unicode code point is out of range: {slice}"
  | .unknownProperty name => s!"unsupported Unicode property `{name}'"
  | .countTooLarge slice => s!"repetition count is too large: {slice}"

/-! ## 2. Tokens -/

/-- What opens a group. -/
inductive GroupKind
  | plain
  | flags (change : FlagChange)
  | notFollowedBy
deriving DecidableEq

/-- A token of a regular expression. -/
inductive Token
  | char (c : Nat)
  | set (chars : CharClass)
  | any
  | star
  | plus
  | quest
  /-- A counted repetition. -/
  | times (min : Nat) (max : Option Nat)
  | setOp (op : SetOp)
  | expand (name : String)
  | eoi
  | openGroup (kind : GroupKind)
  | or
  | closeGroup
  | openClass (negated : Bool)
  | closeClass
  /-- A hyphen inside a bracket expression. -/
  | dash
  | invalid (fault : TokenFault)
deriving DecidableEq

namespace Token

/-- Whether a quantifier right after the token has something to repeat. -/
def endsAtom : Token → Bool
  | .char _ | .set _ | .any | .expand _ | .closeGroup | .closeClass | .invalid _ => true
  | .star | .plus | .quest | .times _ _ | .setOp _ | .eoi | .openGroup _ | .or | .openClass _
  | .dash => false

/-- A one-character quantifier that has nothing to repeat is an ordinary character. -/
def asOperand : Token → Token
  | .star => .char 0x2A
  | .plus => .char 0x2B
  | .quest => .char 0x3F
  | t => t

end Token

/-- A token and the bytes it came from. -/
structure Lexeme where
  token : Token
  range : TextRange
deriving DecidableEq

end GrammarTables.Regex
