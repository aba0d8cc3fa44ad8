import GrammarTables.Regex.Dialect
import GrammarTables.Regex.Token
/-
# Cutting regular expressions into tokens

Two sets of tokens share a text: one for the body of the expression and one for the inside of
brackets.  The cutter changes between them at `[` and `]` and remembers whether the last token
ended an operand, since `*`, `+` and `?` are ordinary characters where there is nothing to
repeat.

The longest token wins.  An escape that cannot be completed is a bad escape of two characters,
and an opening brace or parenthesis that begins nothing else stands for itself.  But where a
repeated part (a name, a count, a list of flags, a property name) was begun and the token cannot
be completed, the dialect says how much of the text is an invalid token.

The functions are `next_lexeme`, `switch_mode`, `outer_token`, `set_token`, `bad_escape`,
`decode_escape`, `decode_repeat` and `decode_flags`, with the patterns of the two sets of tokens.
-/

namespace GrammarTables.Regex

/-! ## 1. Characters -/

def isOctalDigit (c : Char) : Bool := '0' ≤ c && c ≤ '7'

def isHexDigit (c : Char) : Bool :=
  c.isDigit || ('a' ≤ c && c ≤ 'f') || ('A' ≤ c && c ≤ 'F')

/-- The value of a hexadecimal digit. -/
def digitValue (c : Char) : Nat :=
  if c.isDigit then c.toNat - 0x30
  else if 'a' ≤ c && c ≤ 'f' then c.toNat - 0x61 + 10
  else c.toNat - 0x41 + 10

/-- The number that digits denote in a base. -/
def digitsValue (base : Nat) (digits : List Char) : Nat :=
  digits.foldl (fun n c => base * n + digitValue c) 0

def isNameStart (c : Char) : Bool := c.isAlpha || c == '_'

def isNameChar (c : Char) : Bool := c.isAlphanum || c == '_' || c == '-'

def isPropertyChar (c : Char) : Bool := c.isAlphanum || c == '_' || c == '='

def isFlagChar (c : Char) : Bool := c == 'i' || c == 's' || c == '-'

/-- The bytes that characters take. -/
def byteLength (cs : List Char) : Nat := cs.foldl (fun n c => n + c.utf8Size) 0

/-! ## 2. Unfinished tokens -/

/-- A token and the number of characters it takes. -/
abbrev Cut := Token × Nat

/-- The invalid token made of the first `n` characters of `cs`. -/
def unexpected (cs : List Char) (n : Nat) : Cut :=
  (.invalid (.unexpected (String.ofList (cs.take n))), n)

/-- The token at the beginning of `cs`, where one was begun that cannot be completed and `shorter`
is a complete one. -/
def Dialect.unfinished (d : Dialect) (cs : List Char) (shorter : Cut) : Cut :=
  match d.broken? cs with
  | some n => unexpected cs n
  | none => shorter

/-! ## 3. Tokens that begin with a backslash -/

/-- The number that exactly `n` leading hexadecimal digits denote. -/
def hexNumber? (n : Nat) (cs : List Char) : Option Nat :=
  let digits := cs.take n
  if digits.length = n && digits.all isHexDigit then some (digitsValue 16 digits) else none

/-- A character given by `n` hexadecimal digits after the backslash and a letter. -/
def hexEscape (n : Nat) (cs : List Char) : Option Cut :=
  (hexNumber? n (cs.drop 2)).map fun value =>
    (if isScalar value then .char value
      else .invalid (.outOfRange (String.ofList (cs.take (n + 2)))), n + 2)

/-- A character given by three octal digits. -/
def octalEscape (cs : List Char) : Option Cut :=
  let digits := (cs.drop 1).take 3
  if digits.length = 3 && digits.all isOctalDigit then some (.char (digitsValue 8 digits), 4)
  else none

/-- A Unicode property in braces, or the outside of one. -/
def propertyEscape (d : Dialect) (negated : Bool) (cs : List Char) : Option Cut :=
  match cs.drop 2 with
  | '\x7b' :: rest =>
    let name := rest.takeWhile isPropertyChar
    if name.isEmpty then none
    else match rest.drop name.length with
      | '\x7d' :: _ =>
        let name := String.ofList name
        some (match d.property? name with
          | some s => .set (if negated then .outside s else .of s)
          | none => .invalid (.unknownProperty name), name.length + 4)
      | _ => (d.broken? cs).map (unexpected cs)
  | _ => none

/-- The escape that the letter or digit `c` after the backslash begins, if it can be
completed. -/
def letterEscape (d : Dialect) (c : Char) (cs : List Char) : Option Cut :=
  match c with
  | 'a' => some (.char 0x07, 2)
  | 'b' => some (.char 0x08, 2)
  | 'f' => some (.char 0x0C, 2)
  | 'n' => some (.char 0x0A, 2)
  | 'r' => some (.char 0x0D, 2)
  | 't' => some (.char 0x09, 2)
  | 'v' => some (.char 0x0B, 2)
  | 'x' => hexEscape 2 cs
  | 'u' => hexEscape 4 cs
  | 'U' => hexEscape 8 cs
  | 'w' => some (.set (.of .word), 2)
  | 'W' => some (.set (.outside .word), 2)
  | 's' => some (.set (.of .space), 2)
  | 'S' => some (.set (.outside .space), 2)
  | 'd' => some (.set (.of .digit), 2)
  | 'D' => some (.set (.outside .digit), 2)
  | 'p' => propertyEscape d false cs
  | 'P' => propertyEscape d true cs
  | _ => octalEscape cs

/-- The token at a backslash.  `cs` is the text from the backslash on. -/
def escape (d : Dialect) (cs : List Char) : Cut :=
  match cs.drop 1 with
  | [] => (.invalid .trailingBackslash, 1)
  | c :: _ =>
    let bad : Cut := (.invalid (.badEscape (String.ofList (cs.take 2))), 2)
    if c.isAlphanum then (letterEscape d c cs).getD bad
    else if c == '\r' || c == '\n' || c == '\t' then bad
    else (.char c.toNat, 2)

/-! ## 4. Tokens that begin with a brace -/

/-- The largest repetition count that can be written. -/
def maxCount : Nat := 0xFFFFFFFF

/-- The counted repetition `slice`, given its digits. -/
def countToken (slice : List Char) (low : List Char) (high : Option (List Char)) : Token :=
  let min := digitsValue 10 low
  let max := high.map (digitsValue 10)
  if min ≤ maxCount && max.getD 0 ≤ maxCount then .times min max
  else .invalid (.countTooLarge (String.ofList slice))

/-- An opening brace that stands for itself. -/
def openBrace : Cut := (.char 0x7B, 1)

/-- A counted repetition: a brace, digits, perhaps a comma and digits, and a closing brace.
`cs` is the text from the brace on, and its second character is a digit. -/
def counted (d : Dialect) (cs : List Char) : Cut :=
  let rest := cs.drop 1
  let low := rest.takeWhile Char.isDigit
  match rest.drop low.length with
  | '\x7d' :: _ =>
    (countToken (cs.take (low.length + 2)) low (some low), low.length + 2)
  | ',' :: rest =>
    let high := rest.takeWhile Char.isDigit
    match rest.drop high.length with
    | '\x7d' :: _ =>
      let n := low.length + high.length + 3
      (countToken (cs.take n) low (if high.isEmpty then none else some high), n)
    | _ => d.unfinished cs openBrace
  | _ => d.unfinished cs openBrace

/-- A name in braces.  `cs` is the text from the brace on, and its second character begins a
name. -/
def named (d : Dialect) (cs : List Char) : Cut :=
  let name := (cs.drop 1).takeWhile isNameChar
  match cs.drop (name.length + 1) with
  | '\x7d' :: _ =>
    let name := String.ofList name
    (if name == "eoi" then .eoi else .expand name, name.length + 2)
  | _ => d.unfinished cs openBrace

/-- The token at an opening brace.  `cs` is the text from the brace on. -/
def brace (d : Dialect) (cs : List Char) : Cut :=
  match cs.drop 1 with
  | '-' :: '\x7d' :: _ => (.setOp .difference, 3)
  | '+' :: '\x7d' :: _ => (.setOp .union, 3)
  | '&' :: '&' :: '\x7d' :: _ => (.setOp .intersection, 4)
  | c :: _ =>
    if c.isDigit then counted d cs
    else if isNameStart c then named d cs
    else openBrace
  | [] => openBrace

/-! ## 5. Tokens that begin with a parenthesis -/

/-- The change that flag characters describe: those before the first hyphen are switched on,
those after it off, and a later mention overrides an earlier one. -/
def flagChange (cs : List Char) : FlagChange :=
  (cs.foldl (fun (on, change) c =>
    match c with
    | '-' => (false, change)
    | 'i' => (on, { change with caseInsensitive := some on })
    | 's' => (on, { change with dotAll := some on })
    | _ => (on, change)) (true, ({} : FlagChange))).2

/-- An opening parenthesis on its own. -/
def openParenthesis : Cut := (.openGroup .plain, 1)

/-- The token at an opening parenthesis.  `cs` is the text from the parenthesis on. -/
def parenthesis (d : Dialect) (cs : List Char) : Cut :=
  match cs.drop 1 with
  | '?' :: '!' :: _ => (.openGroup .notFollowedBy, 3)
  | '?' :: rest =>
    let flags := rest.takeWhile isFlagChar
    if flags.isEmpty then openParenthesis
    else match rest.drop flags.length with
      | ':' :: _ => (.openGroup (.flags (flagChange flags)), flags.length + 3)
      | _ => d.unfinished cs openParenthesis
  | _ => openParenthesis

/-! ## 6. All tokens -/

/-- The token at the beginning of `c :: cs` outside brackets. -/
def bodyCut (d : Dialect) (c : Char) (cs : List Char) : Cut :=
  match c with
  | '\\' => escape d (c :: cs)
  | '\x7b' => brace d (c :: cs)
  | '(' => parenthesis d (c :: cs)
  | ')' => (.closeGroup, 1)
  | '|' => (.or, 1)
  | '.' => (.any, 1)
  | '*' => (.star, 1)
  | '+' => (.plus, 1)
  | '?' => (.quest, 1)
  | '[' => if cs.head? = some '^' then (.openClass true, 2) else (.openClass false, 1)
  | ']' => d.unfinished (c :: cs) (unexpected (c :: cs) 1)
  | _ => (.char c.toNat, 1)

/-- The token at the beginning of `c :: cs` inside brackets. -/
def classCut (d : Dialect) (c : Char) (cs : List Char) : Cut :=
  match c with
  | '\\' => escape d (c :: cs)
  | '-' => (.dash, 1)
  | ']' => (.closeClass, 1)
  | _ => (.char c.toNat, 1)

/-- What the cutter remembers between tokens. -/
structure LexState where
  inClass : Bool := false
  afterAtom : Bool := false
deriving DecidableEq

/-- The state after a token. -/
def LexState.after (st : LexState) (t : Token) : LexState :=
  { inClass := match t with
      | .openClass _ => true
      | .closeClass => false
      | _ => st.inClass
    afterAtom := t.endsAtom }

/-- The token at the beginning of `c :: cs`. -/
def LexState.cut (d : Dialect) (st : LexState) (c : Char) (cs : List Char) : Cut :=
  let (t, n) := if st.inClass then classCut d c cs else bodyCut d c cs
  (if st.afterAtom then t else t.asOperand, n)

/-- The tokens of a text that begins at byte `offset`. -/
def lexFrom (d : Dialect) (st : LexState) (offset : Nat) : List Char → List Lexeme
  | [] => []
  | c :: cs =>
    let (t, n) := st.cut d c cs
    let stop := offset + byteLength ((c :: cs).take n)
    ⟨t, offset, stop⟩ :: lexFrom d (st.after t) stop (cs.drop (n - 1))
termination_by cs => cs.length
decreasing_by rw [List.length_drop, List.length_cons]; omega

/-- The tokens of a regular expression. -/
def lexemes (d : Dialect) (text : List Char) : List Lexeme := lexFrom d {} 0 text

end GrammarTables.Regex
