import LedgerQuery.Parse
import LedgerQuery.Query.Equality
import LedgerQuery.Query.Written

/-!
# Parsing a written form

What comes of parsing the written form of a statement, under the limit that is
used when none is given.  For the statements that can be written down it is the
same statement.  A tree that holds what no text can be read into may come back
as another statement, or as none.
-/

namespace LedgerQuery

/-- What comes of parsing the written form of a statement. -/
inductive Reparse where
  /-- The same statement. -/
  | same
  /-- Another statement. -/
  | different (found : Statement)
  /-- No statement. -/
  | failed (error : ParseError)

/-- Parses the written form of a statement. -/
def Statement.reparse (s : Statement) : Reparse :=
  match parse s.text with
  | .ok found => if found.Same s then .same else .different found
  | .error e => .failed e

end LedgerQuery
