/-!
Positions in a source text: byte offsets, lines and columns, both counted from one. A line feed starts
a line, and a column is one character wide.
-/

namespace LiveMarkup.Template

structure Position where
  offset : Nat := 0
  line : Nat := 1
  column : Nat := 1
  deriving Repr, BEq, DecidableEq, Inhabited

namespace Position

def past (p : Position) (c : Char) : Position :=
  if c = '\n' then ⟨p.offset + c.utf8Size, p.line + 1, 1⟩
  else ⟨p.offset + c.utf8Size, p.line, p.column + 1⟩

def pastAll (p : Position) (cs : List Char) : Position := cs.foldl past p

end Position

/-- The extent of a construct: where it starts and the offset at which it ends. -/
structure Span where
  start : Position
  stop : Nat
  deriving Repr, BEq, DecidableEq, Inhabited

structure Cursor where
  position : Position
  rest : List Char
  deriving Repr

namespace Cursor

def ofText (source : String) : Cursor := ⟨{}, source.toList⟩

def skip (cursor : Cursor) (n : Nat) : Cursor :=
  ⟨cursor.position.pastAll (cursor.rest.take n), cursor.rest.drop n⟩

def spanFrom (cursor : Cursor) (start : Position) : Span := ⟨start, cursor.position.offset⟩

end Cursor
end LiveMarkup.Template
