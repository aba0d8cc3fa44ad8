import GrammarTables.CharSet.Property
import GrammarTables.Regex.Lexer
/-
# The dialect of a table

A dialect that programs can be run with: its properties are those of the table in
`CharSet.Property`, and a token that cannot be completed is invalid as far as it was read.
-/

namespace GrammarTables.Regex

/-- How many characters of a text are read before it turns out that the token they begin cannot be
completed: a property name, a count, a name, a list of flags, or one character. -/
def readLength : List Char → Nat
  | '\\' :: _ :: '\x7b' :: rest => (rest.takeWhile isPropertyChar).length + 3
  | '\x7b' :: rest =>
    let low := rest.takeWhile Char.isDigit
    if low.isEmpty then (rest.takeWhile isNameChar).length + 1
    else match rest.drop low.length with
      | ',' :: rest => low.length + (rest.takeWhile Char.isDigit).length + 2
      | _ => low.length + 1
  | '(' :: '?' :: rest => (rest.takeWhile isFlagChar).length + 2
  | _ => 1

theorem readLength_pos (cs : List Char) : 0 < readLength cs := by
  unfold readLength
  simp only
  repeat' split
  all_goals omega

/-- The dialect whose properties are those of the table. -/
def Dialect.listed : Dialect where
  property? := CharSet.ofProperty?
  property_isUnicode := CharSet.isUnicode_ofProperty
  property_nonempty := CharSet.exists_mem_ofProperty
  broken? cs := some (readLength cs)
  broken_pos := fun {cs} {n} h => by
    obtain rfl := Option.some.inj h
    exact readLength_pos cs

end GrammarTables.Regex
