/-
# Positions and spans

Where something stands in a scanned text: a byte offset, and a line and a column counted from
1, the column in characters.

The functions are `advance` of a position and `merge` of a span.
-/

namespace GrammarTables

/-- A place in a text. -/
structure Position where
  offset : Nat
  line : Nat
  column : Nat
deriving DecidableEq

namespace Position

/-- The beginning of a text. -/
def start : Position := ⟨0, 1, 1⟩

instance : Inhabited Position := ⟨start⟩

/-- The position after a character. -/
def advance (p : Position) (c : Char) : Position :=
  if c = '\n' then ⟨p.offset + 1, p.line + 1, 1⟩
  else ⟨p.offset + c.utf8Size, p.line, p.column + 1⟩

/-- The position after a text. -/
def advanceAll (p : Position) (cs : List Char) : Position := cs.foldl advance p

/-- The positions before, between and after the characters of a text. -/
def trail (p : Position) : List Char → List Position
  | [] => [p]
  | c :: cs => p :: (p.advance c).trail cs

/-- Order by offset, then line, then column. -/
def ble (p q : Position) : Bool :=
  ((compare p.offset q.offset).then
    ((compare p.line q.line).then (compare p.column q.column))).isLE

/-- The earlier of two positions. -/
def earlier (p q : Position) : Position := if p.ble q then p else q

/-- The later of two positions. -/
def later (p q : Position) : Position := if p.ble q then q else p

/-- `line:column`. -/
def text (p : Position) : String := s!"{p.line}:{p.column}"

end Position

/-- A part of a text, the end exclusive. -/
structure Span where
  start : Position
  stop : Position
deriving DecidableEq

namespace Span

instance : Inhabited Span := ⟨⟨.start, .start⟩⟩

/-- The empty span at a position. -/
def point (p : Position) : Span := ⟨p, p⟩

/-- The smallest span that covers both. -/
def merge (a b : Span) : Span := ⟨a.start.earlier b.start, a.stop.later b.stop⟩

/-- Whether no byte lies in the span. -/
def isEmpty (s : Span) : Bool := s.stop.offset ≤ s.start.offset

/-- The number of bytes in the span. -/
def size (s : Span) : Nat := s.stop.offset - s.start.offset

/-- `line:column-column` within a line, `line:column-line:column` across lines. -/
def text (s : Span) : String :=
  if s.start.line = s.stop.line then s!"{s.start.line}:{s.start.column}-{s.stop.column}"
  else s.start.text ++ "-" ++ s.stop.text

end Span

end GrammarTables
