import GrammarTables.CharSet.Basic
/-
# Sets of code points as text

A set is written in brackets, range by range: a visible ASCII character as itself, the end of
the input by its name, any other code point by its number.
-/

namespace GrammarTables

/-- A number in hexadecimal, with small letters. -/
def hexText (n : Nat) : String := String.ofList (Nat.toDigits 16 n)

/-- The text of one code point. -/
def codePointText (c : Nat) : String :=
  if 0x21 ≤ c && c ≤ 0x7E then String.singleton (Char.ofNat c)
  else if c = endMark then "\x7beoi\x7d"
  else "\\u\x7b" ++ hexText c ++ "\x7d"

/-- The text of one range. -/
def CodeRange.text (r : CodeRange) : String :=
  if r.lo = r.hi then codePointText r.lo else codePointText r.lo ++ "-" ++ codePointText r.hi

/-- The text of a set. -/
def CharSet.text (s : CharSet) : String :=
  "[" ++ String.join (s.ranges.map CodeRange.text) ++ "]"

end GrammarTables
