import GrammarTables.CharSet.Basic
/-
# Dialects of regular expressions

Two things that reading a text needs are not settled by the text: which Unicode properties there
are, and what becomes of a token that was begun and cannot be completed.  A `Dialect` settles both.

Of a dialect it is known only that a property is a set of Unicode code points with at least one
member, and that an invalid token takes at least one character.  Whatever is proved about reading
holds in every dialect.
-/

namespace GrammarTables.Regex

/-- The properties that can be named, and the extents of tokens that cannot be completed. -/
structure Dialect where
  /-- The set that the expression in `\p{..}` denotes, if it denotes one (`unicode_property`). -/
  property? : String → Option CharSet
  property_isUnicode : ∀ {name : String} {s : CharSet}, property? name = some s → s.IsUnicode
  property_nonempty : ∀ {name : String} {s : CharSet}, property? name = some s → ∃ c, c ∈ s
  /-- For a text that begins with a token whose repeated part was read and that cannot be
  completed: how many characters make an invalid token, or `none` if a shorter token is taken. -/
  broken? : List Char → Option Nat
  broken_pos : ∀ {cs : List Char} {n : Nat}, broken? cs = some n → 0 < n

end GrammarTables.Regex
