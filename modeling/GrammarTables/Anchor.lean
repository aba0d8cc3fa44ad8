/-
# Places in a resource

An `Anchor` is a range of bytes of some resource with the line it starts on.  `narrow` turns
the anchor of a text into the anchor of a part of that text.
-/

namespace GrammarTables

/-- A range of bytes of a resource, the end exclusive, and its line, counted from 1. -/
structure Anchor where
  resource : String := ""
  offset : Nat := 0
  endOffset : Nat := 0
  line : Nat := 1
deriving DecidableEq

/-- The number of line feeds that begin before byte `limit`, for a text that begins at byte
`offset`. -/
def newlinesBefore (limit : Nat) (offset : Nat) : List Char → Nat
  | [] => 0
  | c :: rest =>
    (if offset < limit && c == '\n' then 1 else 0) + newlinesBefore limit (offset + c.utf8Size) rest

namespace Anchor

/-- The anchor of the bytes `first .. last` of `text`, for an anchor of the whole text.  Bounds
beyond the text are drawn in to its end. -/
def narrow (a : Anchor) (text : String) (first last : Nat) : Anchor :=
  let size := text.utf8ByteSize
  let first := min first size
  let last := min (max last first) size
  { resource := a.resource
    offset := a.offset + first
    endOffset := a.offset + last
    line := a.line + newlinesBefore first 0 text.toList }

/-- `resource:line:offset..end`, without the resource if it has no name. -/
def text (a : Anchor) : String :=
  let place := s!"{a.line}:{a.offset}..{a.endOffset}"
  if a.resource.isEmpty then place else a.resource ++ ":" ++ place

end Anchor

end GrammarTables
