import LedgerQuery.Grammar.Statement
import LedgerQuery.Proofs.Trace.Basic

/-!
# The grammar with a cursor

Every reader of the grammar again, as a traced one.  A reader that is a routine of its own is called as one,
so that each of its calls is an event.  Where a traced reader is not put together as the plain one is, it
still finds the same.

* A filter on entries looks for `CLOSE` before it tries `CLEAR`, but counts it as tried after that.
* The items of a list may all be left out at first, and a list without an item is refused at its end.
* A comma after a sort key, an argument or an item of a list is read in the round of what is before it.
* A number of rows, or of a target, is read before it is taken as a number.
-/

namespace LedgerQuery

namespace Traced

/-- The readers one nesting level deeper. -/
structure Nested where
  /-- An expression. -/
  expr : Traced Expr
  /-- The operand of `NOT`. -/
  inversion : Traced Expr
  /-- The operand of a sign. -/
  factor : Traced Expr
  /-- A `SELECT` query. -/
  select : Traced Select

/-! ## Values -/

/-- A literal, if one is next. -/
def literal? : Traced (Option Literal) := callOption .literal do
  match (← peek).literal? with
  | some value => some <$> take value
  | none => return none

/-- A name. -/
def name : Traced String := call .name do
  match (← peek).name? with
  | some name => take (.ok name)
  | none => missing .identifier

/-- A date. -/
def date : Traced Date := call .date do
  match ← peek with
  | .date written => take (dateOf written)
  | _ => missing .date

/-- The text of a string. -/
def stringValue : Traced String := do
  match ← peek with
  | .string s => take (.ok s.value)
  | _ => missing .string

/-- A number of rows. -/
def count : Traced UInt64 := call .count do
  match ← peek with
  | .integer digits => takeAfter (countOf digits)
  | _ => missing .integer

/-! ## Atoms -/

/-- An item of a list of literals, which may be left out. -/
def listItem : Traced (Option Literal) := do
  match ← literal? with
  | some value => return some value
  | none =>
    record .literal
    return none

/-- A list of literals, at least one of which is there. -/
def literalList : Traced Expr := call .list do
  expect (.symbol .leftParen)
  let items ← separated .items listItem
  expect (.symbol .rightParen)
  match items.reduceOption with
  | [] => missing .literal
  | found => return .constant (.list found)

/-- The arguments of a call, with their parentheses. -/
def arguments (inner : Nested) : Traced (List Expr) := do
  expect (.symbol .leftParen)
  if ← accept (.symbol .star) then
    expect (.symbol .rightParen)
    return [.wildcard]
  else if ← accept (.symbol .rightParen) then return []
  else
    let args ← separated .arguments inner.expr
    expect (.symbol .rightParen)
    return args

/-- A call of a function. -/
def function (inner : Nested) : Traced Expr := call .function do
  let name ← name
  return .function name (← arguments inner)

/-- A name alone, or a call of a function. -/
def nameOrCall (inner : Nested) : Traced Expr := do
  if (← peekNth 1).is (.symbol .leftParen) then function inner
  else return .column (← name)

/-- A literal, where an atom has to be. -/
def literalAtom : Traced Expr := do
  match ← literal? with
  | some value => return .literal value
  | none => missing .expression

/-- An atom. -/
def atom (inner : Nested) : Traced Expr := call .atom do
  let token ← peek
  if token.is (.keyword .select) then return .subselect (← inner.select)
  else if token.isName then nameOrCall inner
  else
    match token with
    | .placeholder p => take (.ok (.placeholder p))
    | .symbol .leftParen => literalList
    | _ => literalAtom

/-! ## Attributes and subscripts -/

/-- A suffix, if one is next. -/
def suffix? : Traced (Option Parser.Suffix) := do
  if ← acceptQuietly (.symbol .dot) then return some (.attribute (← name))
  else if ← acceptQuietly (.symbol .leftBracket) then
    let key ← stringValue
    expect (.symbol .rightBracket)
    return some (.subscript key)
  else return none

/-- An atom and its suffixes. -/
def primary (inner : Nested) : Traced Expr := call .primary do
  let operand ← atom inner
  return (← many .suffixes suffix?).foldl Parser.Suffix.apply operand

/-! ## Arithmetic -/

/-- Whether a list of literals is next. -/
def atList : Traced Bool := do
  return (← peek).is (.symbol .leftParen) && (← peekNth 1).isLiteral &&
    (← peekNth 2).is (.symbol .comma)

/-- A factor. -/
def factor (inner : Nested) : Traced Expr := call .factor do
  match ← peek with
  | .symbol .leftParen =>
    if ← atList then primary inner
    else
      advance
      let e ← inner.expr
      expect (.symbol .rightParen)
      return e
  | .symbol .minus =>
    advance
    return .unary .neg (← inner.factor)
  | .symbol .plus =>
    advance
    inner.factor
  | _ => primary inner

/-- An operator of a family and its right operand, if such an operator is next. -/
def operation? (family : Symbol → Option BinaryOp) (operand : Traced Expr) :
    Traced (Option (BinaryOp × Expr)) := do
  match ← peek with
  | .symbol s =>
    match family s with
    | some op =>
      advance
      return some (op, ← operand)
    | none => return none
  | _ => return none

/-- Operands with operators of a family between, grouped to the left. -/
def leftGrouped (loop : Loop) (family : Symbol → Option BinaryOp) (operand : Traced Expr) :
    Traced Expr := do
  let first ← operand
  let others ← many loop (operation? family operand)
  return others.foldl (fun left (op, right) => .binary left op right) first

/-- A term. -/
def term (inner : Nested) : Traced Expr :=
  call .term (leftGrouped .term BinaryOp.ofMultiplicative? (factor inner))

/-- A sum. -/
def sum (inner : Nested) : Traced Expr :=
  call .sum (leftGrouped .sum BinaryOp.ofAdditive? (term inner))

/-! ## Comparisons -/

/-- Whether a comparison is next. -/
def atComparison : Traced Bool := do
  match ← peek with
  | .symbol s => return (BinaryOp.ofComparison? s).isSome
  | .keyword .in _ | .keyword .is _ | .keyword .between _ => return true
  | .keyword .not _ => return (← peekNth 1).is (.keyword .in)
  | _ => return false

/-- A test for null, after its first keyword. -/
def nullTest : Traced Parser.Comparison := do
  let negated ← accept (.keyword .not)
  expect (.keyword .null)
  return .null (if negated then .isNotNull else .isNull)

/-- The operator of a comparison, if one is next. -/
def comparison? : Traced (Option Parser.Comparison) := callOption .comparisonOperator do
  match ← peek with
  | .symbol s =>
    match BinaryOp.ofComparison? s with
    | some op =>
      advance
      return some (.binary op)
    | none => return none
  | .keyword .in _ =>
    advance
    return some (.binary .isIn)
  | .keyword .not _ =>
    if (← peekNth 1).is (.keyword .in) then
      advance
      advance
      return some (.binary .notIn)
    else return none
  | .keyword .is _ =>
    advance
    return some (← nullTest)
  | .keyword .between _ =>
    advance
    return some .between
  | _ => return none

/-- The rest of a comparison after its operator. -/
def compared (inner : Nested) (left : Expr) : Parser.Comparison → Traced Expr
  | .binary op => do return .binary left op (← sum inner)
  | .null op => return .unary op left
  | .between => do
    let lower ← sum inner
    expect (.keyword .and)
    let upper ← sum inner
    return .between left lower upper

/-- A comparison. -/
def comparison (inner : Nested) : Traced Expr := call .comparison do
  let left ← sum inner
  match ← comparison? with
  | none => return left
  | some c =>
    let e ← compared inner left c
    if ← atComparison then fail .chainedComparison
    else return e

/-! ## Truth values -/

/-- An inversion. -/
def inversion (inner : Nested) : Traced Expr := call .inversion do
  if ← acceptQuietly (.keyword .not) then return .unary .not (← inner.inversion)
  else comparison inner

/-- Operands with a connective between; one operand stands alone. -/
def connected (loop : Loop) (op : BoolOp) (operand : Traced Expr) : Traced Expr := do
  let first ← operand
  match ← many loop (afterQuietly (.keyword op.key) operand) with
  | [] => return first
  | others => return .bool op (first :: others)

/-- A conjunction. -/
def conjunction (inner : Nested) : Traced Expr :=
  call .conjunction (connected .conjunction .and (inversion inner))

/-- A disjunction. -/
def disjunction (inner : Nested) : Traced Expr :=
  call .disjunction (connected .disjunction .or (conjunction inner))

/-! ## Keys and targets -/

/-- A key to group or sort by. -/
def columnKey (inner : Nested) : Traced ColumnKey := call .columnKey do
  match ← peek with
  | .integer digits =>
    if (← peekNth 1).continuesExpression then return .expr (← inner.expr)
    else return .index (← takeAfter (countOf digits))
  | _ => return .expr (← inner.expr)

/-- A target. -/
def target (inner : Nested) : Traced Target := call .target do
  let start ← nextSpan
  let e ← inner.expr
  let name ← after (.keyword .as) name
  let stop ← lastSpan
  return ⟨e, name, some (start.merge stop)⟩

/-- The targets of a query. -/
def targets (inner : Nested) : Traced Targets := do
  if ← accept (.symbol .star) then return .all
  else return .list (← call .targets (commaList .targets (target inner)))

/-! ## Sources -/

/-- The date entries are opened on, after its first keyword. -/
def openDate : Traced Date := call .openDate do
  expect (.keyword .on)
  date

/-- The date entries are closed on, if they are. -/
def closing? : Traced (Option Closing) := callOption .closing do
  after (.keyword .close) do
    if ← accept (.keyword .on) then return .on (← date)
    else return .default

/-- A filter on entries: an expression with modifiers after it, or modifiers alone. -/
def entryFilter (inner : Nested) : Traced EntryFilter := call .entryFilter do
  if ← accept (.keyword .open) then
    let openOn ← openDate
    let close ← closing?
    return ⟨none, some openOn, close, ← accept (.keyword .clear)⟩
  else if (← peek).is (.keyword .close) then
    let close ← closing?
    return ⟨none, none, close, ← accept (.keyword .clear)⟩
  else if ← accept (.keyword .clear) then return ⟨none, none, none, true⟩
  else
    record (.terminal (.keyword .close))
    let e ← inner.expr
    let openOn ← after (.keyword .open) openDate
    let close ← closing?
    return ⟨some e, openOn, close, ← accept (.keyword .clear)⟩

/-- Whether a query in parentheses is next. -/
def atQuery : Traced Bool := do
  return (← peek).is (.symbol .leftParen) && (← peekNth 1).is (.keyword .select)

/-- Where the rows of a query come from. -/
def source (inner : Nested) : Traced Source := call .source do
  match ← peek with
  | .table name => take (.ok (.table name))
  | _ =>
    if ← atQuery then
      advance
      let query ← inner.select
      expect (.symbol .rightParen)
      return .query query
    else
      record .table
      return .entries (← entryFilter inner)

/-! ## Clauses -/

/-- How rows are grouped. -/
def groupBy (inner : Nested) : Traced GroupBy := do
  expect (.keyword .by)
  call .groupBy do
    let keys ← commaList .groupKeys (columnKey inner)
    return ⟨keys, ← after (.keyword .having) inner.expr⟩

/-- The direction of a sort key, ascending if none is given. -/
def sortDirection : Traced SortDirection := do
  if ← accept (.keyword .desc) then return .descending
  else
    let _ ← accept (.keyword .asc)
    return .ascending

/-- A key to sort by. -/
def sortKey (inner : Nested) : Traced SortKey := do
  let column ← columnKey inner
  return ⟨column, ← sortDirection⟩

/-- How rows are sorted. -/
def orderBy (inner : Nested) : Traced (List SortKey) := do
  expect (.keyword .by)
  call .orderBy (separated .sortKeys (sortKey inner))

/-- A key of a pivot. -/
def pivotKey : Traced PivotKey := call .pivotKey do
  match ← peek with
  | .integer digits => return .index (← takeAfter (countOf digits))
  | _ =>
    record .integer
    return .column (← name)

/-- The two keys of a pivot. -/
def pivotBy : Traced PivotBy := do
  expect (.keyword .by)
  call .pivotBy do
    let row ← pivotKey
    if (← peek).is (.symbol .comma) then
      advance
      let column ← pivotKey
      if (← peek).is (.symbol .comma) then fail .pivotArity
      else return ⟨row, column⟩
    else fail .pivotArity

/-- A `SELECT` query. -/
def selectQuery (inner : Nested) : Traced Select := do
  expect (.keyword .select)
  let distinct ← accept (.keyword .distinct)
  let targets ← targets inner
  let source ← after (.keyword .from) (source inner)
  let condition ← after (.keyword .where) inner.expr
  let groupBy ← after (.keyword .group) (groupBy inner)
  let orderBy ← after (.keyword .order) (orderBy inner)
  let pivotBy ← after (.keyword .pivot) pivotBy
  let limit ← after (.keyword .limit) count
  return ⟨targets, distinct, source, condition, groupBy, orderBy, pivotBy, limit⟩

/-! ## Nesting -/

/-- The readers one level deeper, made of what is read there. -/
def Nested.ofReaders (expr inversion factor : Traced Expr) (select : Traced Select) : Nested :=
  ⟨call .expr (deeper expr), deeper inversion, deeper factor, call .select (deeper select)⟩

/-- The readers that may go so many levels deeper. -/
def nested : (levels : Nat) → Nested
  | 0 => .ofReaders stuck stuck stuck stuck
  | levels + 1 => .ofReaders (fun sheet => disjunction (nested levels) sheet)
      (fun sheet => inversion (nested levels) sheet) (fun sheet => factor (nested levels) sheet)
      (fun sheet => selectQuery (nested levels) sheet)

/-! ## Statements -/

/-- The function that sums up positions, if one is named. -/
def summary : Traced (Option String) := callOption .summary (after (.keyword .at) name)

/-- The filter of a shorthand, if it has one. -/
def shorthandSource (inner : Nested) : Traced (Option EntryFilter) :=
  callOption .shorthandSource (after (.keyword .from) (entryFilter inner))

/-- A `BALANCES` query. -/
def balances (inner : Nested) : Traced Balances := call .balances do
  expect (.keyword .balances)
  let summary ← summary
  let source ← shorthandSource inner
  return ⟨summary, source, ← after (.keyword .where) inner.expr⟩

/-- The pattern for accounts, if there is one. -/
def accountPattern : Traced (Option String) := do
  match ← peek with
  | .string s => take (.ok (some s.value))
  | _ =>
    record .string
    return none

/-- A `JOURNAL` query. -/
def journal (inner : Nested) : Traced Journal := call .journal do
  expect (.keyword .journal)
  let account ← accountPattern
  let summary ← summary
  return ⟨account, summary, ← shorthandSource inner⟩

/-- A `PRINT` query. -/
def print (inner : Nested) : Traced Print := call .print do
  expect (.keyword .print)
  return ⟨← shorthandSource inner⟩

/-- A statement. -/
def statement (inner : Nested) : Traced Statement := call .statement do
  match ← peek with
  | .keyword .select _ => return .select (← inner.select)
  | .keyword .balances _ => return .balances (← balances inner)
  | .keyword .journal _ => return .journal (← journal inner)
  | .keyword .print _ => return .print (← print inner)
  | _ =>
    Parser.statementStarts.forM fun k => record (.terminal (.keyword k))
    unexpected

/-- The end of the text. -/
def endOfInput : Traced Unit := do
  match ← peek with
  | .eof => return
  | _ => missing .endOfInput

/-- A whole text: a statement and the span from its first token to its last. -/
def wholeText (inner : Nested) : Traced (Statement × Span) := call .text do
  let start ← nextSpan
  let statement ← statement inner
  let stop ← lastSpan
  endOfInput
  return (statement, start.merge stop)

/-- The run over a sheet, from its start. -/
def run (sheet : Sheet) : EStateM.Result Halt Recording (Statement × Span) :=
  wholeText (nested sheet.limit) sheet ⟨.start, []⟩

end Traced

end LedgerQuery
