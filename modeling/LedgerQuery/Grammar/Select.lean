import LedgerQuery.Grammar.Expr

/-!
# The grammar of `SELECT`

The clauses come in one order and each is chosen by its first keyword.  A key
to group or sort by that is one integer alone is the number of a target.
Anything else is an expression.

`nested` ties the readers of expressions and queries together.  It runs over
the nesting levels that are left, and at none left every reader refuses to go
deeper.
-/

namespace LedgerQuery

/-- Whether a token after an integer makes it part of a larger expression. -/
def Token.continuesExpression : Token → Bool
  | .symbol s =>
    (BinaryOp.ofComparison? s).isSome || (BinaryOp.ofAdditive? s).isSome ||
      (BinaryOp.ofMultiplicative? s).isSome || [Symbol.dot, .leftBracket].contains s
  | .keyword k _ => [Keyword.and, .or, .in, .not, .is, .between].contains k
  | _ => false

namespace Parser

/-! ## Keys and targets -/

/-- A key to group or sort by. -/
def columnKey (inner : Nested) : Parser ColumnKey := do
  match ← peek with
  | .integer digits =>
    if (← peekNth 1).continuesExpression then return .expr (← inner.expr)
    else return .index (← take (countOf digits))
  | _ => return .expr (← inner.expr)

/-- A target. -/
def target (inner : Nested) : Parser Target := do
  let start ← nextSpan
  let e ← inner.expr
  let name ← after (.keyword .as) name
  let stop ← lastSpan
  return ⟨e, name, some (start.merge stop)⟩

/-- The targets of a query. -/
def targets (inner : Nested) : Parser Targets := do
  if ← accept (.symbol .star) then return .all
  else return .list (← commaList (target inner))

/-! ## Sources -/

/-- The date entries are opened on, after its first keyword. -/
def openDate : Parser Date := do
  expect (.keyword .on)
  date

/-- The date entries are closed on, after its first keyword. -/
def closing : Parser Closing := do
  if ← accept (.keyword .on) then return .on (← date)
  else return .default

/-- A filter on entries: an expression with modifiers after it, or modifiers alone. -/
def entryFilter (inner : Nested) : Parser EntryFilter := do
  if ← accept (.keyword .open) then
    let openOn ← openDate
    let close ← after (.keyword .close) closing
    return ⟨none, some openOn, close, ← accept (.keyword .clear)⟩
  else if ← accept (.keyword .close) then
    let close ← closing
    return ⟨none, none, some close, ← accept (.keyword .clear)⟩
  else if ← accept (.keyword .clear) then return ⟨none, none, none, true⟩
  else
    let e ← inner.expr
    let openOn ← after (.keyword .open) openDate
    let close ← after (.keyword .close) closing
    return ⟨some e, openOn, close, ← accept (.keyword .clear)⟩

/-- Whether a query in parentheses is next. -/
def atQuery : Parser Bool := do
  return (← peek).is (.symbol .leftParen) && (← peekNth 1).is (.keyword .select)

/-- Where the rows of a query come from. -/
def source (inner : Nested) : Parser Source := do
  match ← peek with
  | .table name => take (.ok (.table name))
  | _ =>
    if ← atQuery then
      advance
      let query ← inner.select
      expect (.symbol .rightParen)
      return .query query
    else
      record .table
      return .entries (← entryFilter inner)

/-! ## Clauses -/

/-- How rows are grouped. -/
def groupBy (inner : Nested) : Parser GroupBy := do
  expect (.keyword .by)
  let keys ← commaList (columnKey inner)
  return ⟨keys, ← after (.keyword .having) inner.expr⟩

/-- The direction of a sort key, ascending if none is given. -/
def sortDirection : Parser SortDirection := do
  if ← accept (.keyword .desc) then return .descending
  else
    let _ ← accept (.keyword .asc)
    return .ascending

/-- A key to sort by. -/
def sortKey (inner : Nested) : Parser SortKey := do
  let column ← columnKey inner
  return ⟨column, ← sortDirection⟩

/-- How rows are sorted. -/
def orderBy (inner : Nested) : Parser (List SortKey) := do
  expect (.keyword .by)
  commaList (sortKey inner)

/-- A key of a pivot. -/
def pivotKey : Parser PivotKey := do
  match ← peek with
  | .integer digits => return .index (← take (countOf digits))
  | _ =>
    record .integer
    return .column (← name)

/-- The two keys of a pivot. -/
def pivotBy : Parser PivotBy := do
  expect (.keyword .by)
  let row ← pivotKey
  if (← peek).is (.symbol .comma) then
    advance
    let column ← pivotKey
    if (← peek).is (.symbol .comma) then fail .pivotArity
    else return ⟨row, column⟩
  else fail .pivotArity

/-- A `SELECT` query. -/
def selectQuery (inner : Nested) : Parser Select := do
  expect (.keyword .select)
  let distinct ← accept (.keyword .distinct)
  let targets ← targets inner
  let source ← after (.keyword .from) (source inner)
  let condition ← after (.keyword .where) inner.expr
  let groupBy ← after (.keyword .group) (groupBy inner)
  let orderBy ← after (.keyword .order) (orderBy inner)
  let pivotBy ← after (.keyword .pivot) pivotBy
  let limit ← after (.keyword .limit) count
  return ⟨targets, distinct, source, condition, groupBy, orderBy, pivotBy, limit⟩

/-! ## Nesting -/

/-- The readers that may go so many levels deeper, under a limit named in errors. -/
def nested (limit : Nat) : (levels : Nat) → Nested
  | 0 => ⟨fail (.tooDeep limit), fail (.tooDeep limit), fail (.tooDeep limit),
      fail (.tooDeep limit)⟩
  | levels + 1 =>
    ⟨fun s => disjunction (nested limit levels) s, fun s => inversion (nested limit levels) s,
      fun s => factor (nested limit levels) s, fun s => selectQuery (nested limit levels) s⟩

end Parser

end LedgerQuery
