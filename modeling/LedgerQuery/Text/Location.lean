import LedgerQuery.Text.Bytes

/-!
# Locations

A location names a place of a text for people: its line and column, counted
from one, and its byte offset.  Lines end at a line feed and columns count
characters.

The location after a text is found by walking over its characters.  An offset
past the end means the end.  An offset inside a character has the line and
column of the end of the whole text.
-/

namespace LedgerQuery

/-- A place in a text. -/
structure Location where
  /-- The line, counted from one. -/
  line : Nat
  /-- The column in characters, counted from one. -/
  column : Nat
  /-- The byte offset. -/
  offset : Nat
deriving DecidableEq, Repr, Inhabited

namespace Location

/-- The first place of every text. -/
def origin : Location := ⟨1, 1, 0⟩

/-- The place after one more character. -/
def next (l : Location) (c : Char) : Location :=
  if c = '\n' then ⟨l.line + 1, 1, l.offset + c.utf8Size⟩
  else ⟨l.line, l.column + 1, l.offset + c.utf8Size⟩

/-- The place after a text. -/
def after (cs : List Char) : Location := cs.foldl next origin

/-- The place of a byte offset. -/
def ofOffset (cs : List Char) (offset : Nat) : Location :=
  match splitAtByte? cs offset with
  | some (before, _) => after before
  | none => { after cs with offset := min offset (byteLength cs) }

/-- The written form, line and column with a colon between. -/
def display (l : Location) : String := s!"{l.line}:{l.column}"

end Location

end LedgerQuery
