import LedgerQuery.Grammar.Select

/-!
# The grammar of statements

A statement is a `SELECT` query or one of three shorthands, and it has to be
the whole text.
-/

namespace LedgerQuery

namespace Parser

/-- The function that sums up positions, if one is named. -/
def summary : Parser (Option String) := after (.keyword .at) name

/-- The filter of a shorthand, if it has one. -/
def shorthandSource (inner : Nested) : Parser (Option EntryFilter) :=
  after (.keyword .from) (entryFilter inner)

/-- A `BALANCES` query. -/
def balances (inner : Nested) : Parser Balances := do
  expect (.keyword .balances)
  let summary ← summary
  let source ← shorthandSource inner
  return ⟨summary, source, ← after (.keyword .where) inner.expr⟩

/-- The pattern for accounts, if there is one. -/
def accountPattern : Parser (Option String) := do
  match ← peek with
  | .string s => take (.ok (some s.value))
  | _ =>
    record .string
    return none

/-- A `JOURNAL` query. -/
def journal (inner : Nested) : Parser Journal := do
  expect (.keyword .journal)
  let account ← accountPattern
  let summary ← summary
  return ⟨account, summary, ← shorthandSource inner⟩

/-- A `PRINT` query. -/
def print (inner : Nested) : Parser Print := do
  expect (.keyword .print)
  return ⟨← shorthandSource inner⟩

/-- The keywords a statement can start with. -/
def statementStarts : List Keyword := [.select, .balances, .journal, .print]

/-- A statement. -/
def statement (inner : Nested) : Parser Statement := do
  match ← peek with
  | .keyword .select _ => return .select (← inner.select)
  | .keyword .balances _ => return .balances (← balances inner)
  | .keyword .journal _ => return .journal (← journal inner)
  | .keyword .print _ => return .print (← print inner)
  | _ =>
    statementStarts.forM fun k => record (.terminal (.keyword k))
    unexpected

/-- The end of the text. -/
def endOfInput : Parser Unit := do
  match ← peek with
  | .eof => return
  | _ => missing .endOfInput

/-- A whole text: a statement and the span from its first token to its last. -/
def wholeText (inner : Nested) : Parser (Statement × Span) := do
  let start ← nextSpan
  let statement ← statement inner
  let stop ← lastSpan
  endOfInput
  return (statement, start.merge stop)

end Parser

end LedgerQuery
